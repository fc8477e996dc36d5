-- SUMMARY: What jump analysis puts into its tables.
import TsEthereum.Evm.JumpAnalysis

/-!
# Jump tables

The scan goes from one instruction to the next. Behind it the tables hold, for
every instruction, its entry, what it pushes, and whether it is a JUMPDEST.
-/

open List Option Function

open InstructionStream

/-- The bytes behind a PUSH, with zeros behind the end of the code. -/
def pushValue (code : Bytes) (start size : Nat) : Int :=
  bytesToBigInt ((code.drop start ++ List.replicate size 0).take size)

/-- What both ways of loading a value do. -/
theorem loadedBytes_eq (code : Bytes) (start size : Nat) :
    bytesToBigInt (if ((code.drop start).take size).length < size then
      setLengthRight ((code.drop start).take size) size else (code.drop start).take size) =
      pushValue code start size := by
  unfold pushValue setLengthRight
  rw [take_append, take_replicate]
  congr 1
  simp only [length_take, length_drop]
  split
  case isTrue hshort =>
    have hrest : code.length - start < size := by omega
    rw [min_eq_right hrest.le, Nat.min_eq_left (Nat.sub_le _ _)]
  case isFalse hlong =>
    have hrest : size - (code.length - start) = 0 := by omega
    rw [hrest, Nat.zero_min, replicate_zero, append_nil]

theorem pushSize_pos {opcode : UInt8} : 0 < pushSize opcode ↔ 0x60 ≤ opcode ∧ opcode ≤ 0x7f := by
  unfold pushSize
  split
  case isTrue h =>
    have hlow : 0x60 ≤ opcode.toNat := UInt8.le_iff_toNat_le.mp h.1
    exact ⟨fun _ => h, fun _ => Nat.sub_pos_of_lt hlow⟩
  case isFalse h => exact ⟨fun hpos => absurd hpos (Nat.lt_irrefl 0), fun h' => absurd h' h⟩

namespace JumpTables

variable {evm : EVM} {code : Bytes} {i : Nat} {opcode : UInt8} {t : JumpTables}

/-! ## One round of the scan -/

theorem visit_snd : (visit evm code i opcode t).2 = i + pushSize opcode := by
  unfold visit pushSize
  split_ifs <;> first | rfl | tauto

theorem visit_shouldDoJumpAnalysis :
    (visit evm code i opcode t).1.shouldDoJumpAnalysis = t.shouldDoJumpAnalysis := by
  unfold visit
  split_ifs <;> rfl

theorem visit_cachedOpcodes : (visit evm code i opcode t).1.cachedOpcodes =
      t.cachedOpcodes.set i (some (evm.opcodeEntry opcode.toNat)) := by
  unfold visit
  split_ifs <;> rfl

theorem visit_cachedPushes :
    (visit evm code i opcode t).1.cachedPushes =
      if 0 < pushSize opcode then
        Function.update t.cachedPushes (i + 1) (some (pushValue code (i + 1) (pushSize opcode)))
      else t.cachedPushes := by
  simp only [pushSize_pos]
  unfold visit
  by_cases hpush : 0x60 ≤ opcode ∧ opcode ≤ 0x7f
  · rw [if_pos hpush, if_pos hpush.2, if_pos hpush.1, pushSize, if_pos hpush]
    simp only [loadedBytes_eq]
  · rw [if_neg hpush]
    split_ifs <;> first | rfl | tauto

theorem visit_validJumps :
    (visit evm code i opcode t).1.validJumps =
      if opcode = 0x5b then t.validJumps.set i 1 else t.validJumps := by
  unfold visit
  by_cases hdest : opcode = 0x5b
  · subst hdest
    rfl
  · rw [if_neg hdest]
    split_ifs <;> rfl

/-! ## The scan -/

variable (evm code) in
/-- The tables are right for the instructions before `i`, and nothing is marked from there on. -/
structure ScannedTo (i : Nat) (t : JumpTables) : Prop where
  inUse : t.shouldDoJumpAnalysis = false
  length_validJumps : t.validJumps.length = code.length
  length_cachedOpcodes : t.cachedOpcodes.length = code.length
  opcodes : ∀ k b, k < i → Start pushSize code k → code[k]? = some b →
    t.cachedOpcodes[k]? = some (some (evm.opcodeEntry b.toNat))
  pushes : ∀ k b, k < i → Start pushSize code k → code[k]? = some b → 0 < pushSize b →
    t.cachedPushes (k + 1) = some (pushValue code (k + 1) (pushSize b))
  marked : ∀ k, t.validJumps[k]? = some 1 ↔
    k < i ∧ Start pushSize code k ∧ code[k]? = some 0x5b

/-- The instructions up to and with one. -/
theorem lt_or_eq_of_start {k : Nat} (hi : Start pushSize code i) (hk : Start pushSize code k)
    (hopcode : code[i]? = some opcode) (hlt : k < i + 1 + pushSize opcode) : k < i ∨ k = i := by
  by_contra hnot
  push Not at hnot
  exact absurd hlt (Nat.not_lt_of_le (hi.gap hk hopcode (lt_of_le_of_ne hnot.1 hnot.2.symm)))

theorem ScannedTo.visit (h : ScannedTo evm code i t) (hi : Start pushSize code i)
    (hopcode : code[i]? = some opcode) :
    ScannedTo evm code (i + 1 + pushSize opcode) (visit evm code i opcode t).1 where
  inUse := visit_shouldDoJumpAnalysis.trans h.inUse
  length_validJumps := by
    rw [visit_validJumps]
    split
    · exact length_set.trans h.length_validJumps
    · exact h.length_validJumps
  length_cachedOpcodes := by
    rw [visit_cachedOpcodes]
    exact length_set.trans h.length_cachedOpcodes
  opcodes k b hlt hk hb := by
    have hlength : i < t.cachedOpcodes.length :=
      h.length_cachedOpcodes ▸ (List.getElem?_eq_some_iff.mp hopcode).1
    rw [visit_cachedOpcodes]
    rcases lt_or_eq_of_start hi hk hopcode hlt with hbefore | rfl
    · rw [getElem?_set_ne (Nat.ne_of_gt hbefore)]
      exact h.opcodes k b hbefore hk hb
    · obtain rfl : opcode = b := some.inj (hopcode.symm.trans hb)
      exact getElem?_set_self hlength
  pushes k b hlt hk hb hpush := by
    rw [visit_cachedPushes]
    rcases lt_or_eq_of_start hi hk hopcode hlt with hbefore | rfl
    · have hne : k + 1 ≠ i + 1 := Nat.ne_of_lt (Nat.succ_lt_succ hbefore)
      split
      · rw [update_of_ne hne]
        exact h.pushes k b hbefore hk hb hpush
      · exact h.pushes k b hbefore hk hb hpush
    · obtain rfl : opcode = b := some.inj (hopcode.symm.trans hb)
      rw [if_pos hpush, update_self]
  marked k := by
    have hlength : i < t.validJumps.length :=
      h.length_validJumps ▸ (List.getElem?_eq_some_iff.mp hopcode).1
    have hnext : i < i + 1 + pushSize opcode := by omega
    rw [visit_validJumps]
    split
    case isTrue hdest =>
      subst hdest
      rw [getElem?_set]
      split
      case isTrue hik =>
        subst hik
        exact ⟨fun _ => ⟨hnext, hi, hopcode⟩, fun _ => rfl⟩
      case isFalse hik =>
        rw [h.marked k]
        constructor
        · exact fun ⟨hlt, hk⟩ => ⟨hlt.trans hnext, hk⟩
        · intro ⟨hlt, hk, hb⟩
          exact ⟨(lt_or_eq_of_start hi hk hopcode hlt).resolve_right (Ne.symm hik), hk, hb⟩
    case isFalse hdest =>
      rw [h.marked k]
      constructor
      · exact fun ⟨hlt, hk⟩ => ⟨hlt.trans hnext, hk⟩
      · intro ⟨hlt, hk, hb⟩
        refine ⟨(lt_or_eq_of_start hi hk hopcode hlt).resolve_right fun hki => hdest ?_, hk, hb⟩
        exact some.inj (hopcode.symm.trans (hki ▸ hb))

theorem ScannedTo.scan (fuel : Nat) (h : ScannedTo evm code i t) (hi : Start pushSize code i)
    (hfuel : code.length ≤ i + fuel) :
    ∃ n, code.length ≤ n ∧ ScannedTo evm code n (scan evm code fuel i t) := by
  induction fuel generalizing i t with
  | zero => exact ⟨i, hfuel, h⟩
  | succ fuel ih =>
    cases hopcode : code[i]? with
    | none =>
      refine ⟨i, List.getElem?_eq_none_iff.mp hopcode, ?_⟩
      simp only [JumpTables.scan, hopcode]
      exact h
    | some opcode =>
      have hnext : i + pushSize opcode + 1 = i + 1 + pushSize opcode := by omega
      simp only [JumpTables.scan, hopcode, visit_snd, hnext]
      exact ih (h.visit hi hopcode) (hi.next hopcode) (by omega)

theorem ScannedTo.start (evm : EVM) (code : Bytes) : ScannedTo evm code 0
    ⟨false, List.replicate code.length 0, fun _ => none, List.replicate code.length none⟩ where
  inUse := rfl
  length_validJumps := length_replicate
  length_cachedOpcodes := length_replicate
  opcodes _ _ h := absurd h (Nat.not_lt_zero _)
  pushes _ _ h := absurd h (Nat.not_lt_zero _)
  marked k := by
    rw [getElem?_replicate]
    split <;> simp

/-- The tables say for every instruction what the bytes of the code say. -/
structure Analysed (evm : EVM) (code : Bytes) (t : JumpTables) : Prop where
  inUse : t.shouldDoJumpAnalysis = false
  opcodes : ∀ k b, Start pushSize code k → code[k]? = some b →
    t.cachedOpcodes[k]? = some (some (evm.opcodeEntry b.toNat))
  pushes : ∀ k b, Start pushSize code k → code[k]? = some b → 0 < pushSize b →
    t.cachedPushes (k + 1) = some (pushValue code (k + 1) (pushSize b))
  jumps : ∀ dest, t.jumpIsValid dest = isDestination code dest

theorem analysed (evm : EVM) (code : Bytes) :
    Analysed evm code (getValidJumpDestinations evm code) := by
  obtain ⟨n, hn, h⟩ := (ScannedTo.start evm code).scan code.length .zero (Nat.le_add_left _ _)
  have hlt {k : Nat} {b : UInt8} (hb : code[k]? = some b) : k < n :=
    (List.getElem?_eq_some_iff.mp hb).1.trans_le hn
  refine ⟨h.inUse, fun k b hk hb => h.opcodes k b (hlt hb) hk hb,
    fun k b hk hb => h.pushes k b (hlt hb) hk hb, fun dest => ?_⟩
  refine decide_eq_decide.mpr ((h.marked dest).trans ?_)
  constructor
  · exact fun ⟨_, hk, hb⟩ => ⟨hb, (marks_iff (List.getElem?_eq_some_iff.mp hb).1).mpr hk⟩
  · exact fun ⟨hb, hk⟩ => ⟨hlt hb, (marks_iff (List.getElem?_eq_some_iff.mp hb).1).mp hk, hb⟩

end JumpTables
