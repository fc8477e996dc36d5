-- SUMMARY: Streams of instructions with operands behind them: where the instructions start.
import Mathlib.Data.Set.Card
import Mathlib.Order.Interval.Finset.Nat
import Mathlib.Order.Nat

/-!
# Instruction streams

Each item of a stream says how many of the items behind it are its operands. The
first item is an instruction, and so is the one behind an instruction's operands.
Where a stream is cut, the number of operands that are still to come is all that its
second part has to be told.
-/

open Nat List Set

namespace InstructionStream

variable {α : Type} (operands : α → Nat)

inductive Start (code : List α) : Nat → Prop
  | zero : Start code 0
  | next {i : Nat} {a : α} (h : Start code i) (ha : code[i]? = some a) :
      Start code (i + 1 + operands a)

/-- For each position whether an instruction starts there, behind `skip` operands. -/
def marks : Nat → List α → List Bool
  | _, [] => []
  | 0, a :: code => true :: marks (operands a) code
  | skip + 1, _ :: code => false :: marks skip code

variable {operands} {code : List α}

/-- The operands of an instruction are none themselves. -/
theorem Start.gap {i k : Nat} {a : α} (hi : Start operands code i) (hk : Start operands code k)
    (ha : code[i]? = some a) (hlt : i < k) : i + 1 + operands a ≤ k := by
  -- over the later position: an instruction between the two would be a later one of its own
  induction k using Nat.strongRecOn generalizing i a with
  | ind k ih =>
    cases hk with
    | zero => exact absurd hlt (Nat.not_lt_zero i)
    | @next k' a' hk' ha' =>
      rcases lt_trichotomy i k' with hbefore | rfl | hbehind
      · have hle : i + 1 + operands a ≤ k' :=
          ih k' (Nat.lt_of_lt_of_le (lt_succ_self k') (Nat.le_add_right _ _)) hi hk' ha hbefore
        exact hle.trans ((le_succ k').trans (Nat.le_add_right _ _))
      · obtain rfl : a = a' := Option.some.inj (ha.symm.trans ha')
        exact le_rfl
      · have hle : k' + 1 + operands a' ≤ i := ih i hlt hk' hi ha' hbehind
        exact absurd hlt (Nat.not_lt_of_le hle)

/-- The marks of the rest of a stream, where its next instruction is `skip` items ahead. -/
theorem marks_rest (front rest : List α) (skip : Nat)
    (hnext : ∀ k, front.length ≤ k → k ≤ front.length + rest.length →
      Start operands (front ++ rest) k → front.length + skip ≤ k)
    (hstart : skip ≤ rest.length → Start operands (front ++ rest) (front.length + skip)) (j : Nat)
    (hj : j < rest.length) : (marks operands skip rest)[j]? = some true ↔
      Start operands (front ++ rest) (front.length + j) := by
  induction rest generalizing front skip j with
  | nil => exact absurd hj (Nat.not_lt_zero j)
  | cons a rest ih =>
    have hcode : front ++ a :: rest = (front ++ [a]) ++ rest := by simp
    have hlength : (front ++ [a]).length = front.length + 1 := by simp
    have ha : (front ++ a :: rest)[front.length]? = some a := by simp
    cases skip with
    | zero =>
      have hhere : Start operands (front ++ a :: rest) front.length := hstart (Nat.zero_le _)
      cases j with
      | zero => exact ⟨fun _ => hhere, fun _ => rfl⟩
      | succ j =>
        have hrest := ih (front ++ [a]) (operands a) (fun k hk _ hsk => ?_) (fun _ => ?_) j
          (lt_of_succ_lt_succ hj)
        · rw [hlength, ← hcode, Nat.add_assoc, Nat.add_comm 1 j] at hrest
          exact hrest
        · rw [← hcode] at hsk
          rw [hlength] at hk ⊢
          exact hhere.gap hsk ha hk
        · rw [← hcode, hlength]
          exact hhere.next ha
    | succ skip =>
      cases j with
      | zero =>
        have hnone : ¬Start operands (front ++ a :: rest) front.length := fun h =>
          absurd (hnext _ le_rfl (Nat.le_add_right _ _) h) (by omega)
        exact ⟨nofun, fun h => absurd h hnone⟩
      | succ j =>
        have hrest := ih (front ++ [a]) skip (fun k hk hle hsk => ?_) (fun hle => ?_) j
          (lt_of_succ_lt_succ hj)
        · rw [hlength, ← hcode, Nat.add_assoc, Nat.add_comm 1 j] at hrest
          exact hrest
        · rw [← hcode] at hsk
          rw [hlength] at hk hle ⊢
          have := hnext k (by omega) (by simp only [length_cons]; omega) hsk
          omega
        · rw [← hcode, hlength, Nat.add_assoc, Nat.add_comm 1 skip]
          exact hstart (succ_le_succ hle)

/-- The marks of a stream are where its instructions start. -/
theorem marks_iff {i : Nat} (hi : i < code.length) :
    (marks operands 0 code)[i]? = some true ↔ Start operands code i := by
  have h := @marks_rest _ operands [] code 0 (fun _ _ _ _ => Nat.zero_le _)
    (fun _ => .zero) i hi
  simpa using h

/-! ## Cut streams -/

variable (operands) in
/-- The number of operands that are still to come behind the stream. -/
def pending : Nat → List α → Nat
  | skip, [] => skip
  | 0, a :: code => pending (operands a) code
  | skip + 1, _ :: code => pending skip code

theorem pending_append (skip : Nat) (front rest : List α) :
    pending operands skip (front ++ rest) = pending operands (pending operands skip front) rest := by
  induction front generalizing skip with
  | nil => rfl
  | cons a front ih =>
    cases skip with
    | zero => exact ih (operands a)
    | succ skip => exact ih skip

/-- Operands go by one after the other. -/
theorem pending_of_length_le {skip : Nat} (h : code.length ≤ skip) :
    pending operands skip code = skip - code.length := by
  induction code generalizing skip with
  | nil => rfl
  | cons a code ih =>
    cases skip with
    | zero => exact absurd h (not_succ_le_zero _)
    | succ skip =>
      rw [length_cons, Nat.add_sub_add_right]
      exact ih (le_of_succ_le_succ h)

theorem pending_le {n skip : Nat} (hn : ∀ a, operands a ≤ n) (hskip : skip ≤ n) (code : List α) :
    pending operands skip code ≤ n := by
  induction code generalizing skip with
  | nil => exact hskip
  | cons a code ih =>
    cases skip with
    | zero => exact ih (hn a)
    | succ skip => exact ih (le_of_succ_le hskip)

theorem marks_append (skip : Nat) (front rest : List α) : marks operands skip (front ++ rest) =
      marks operands skip front ++ marks operands (pending operands skip front) rest := by
  induction front generalizing skip with
  | nil => rfl
  | cons a front ih =>
    cases skip with
    | zero => exact congrArg (true :: ·) (ih (operands a))
    | succ skip => exact congrArg (false :: ·) (ih skip)

@[simp] theorem length_marks (skip : Nat) (code : List α) :
    (marks operands skip code).length = code.length := by
  induction code generalizing skip with
  | nil => rfl
  | cons a code ih =>
    cases skip with
    | zero => exact congrArg (· + 1) (ih (operands a))
    | succ skip => exact congrArg (· + 1) (ih skip)

/-- A stream need not be told of more operands than it has items. -/
theorem marks_min (skip : Nat) {n : Nat} (h : code.length ≤ n) :
    marks operands (min skip n) code = marks operands skip code := by
  induction code generalizing skip n with
  | nil => rfl
  | cons a code ih =>
    obtain ⟨n, rfl⟩ : ∃ m, n = m + 1 := ⟨n - 1, (succ_pred_eq_of_pos (Nat.lt_of_lt_of_le
      (succ_pos _) h)).symm⟩
    cases skip with
    | zero => rw [Nat.zero_min]
    | succ skip =>
      rw [Nat.add_min_add_right]
      exact congrArg (false :: ·) (ih skip (le_of_succ_le_succ h))

variable (operands code) in
/-- Position `k` holds an operand of the instruction at `i`. -/
def OperandOf (i k : Nat) : Prop :=
  ∃ a, code[i]? = some a ∧ Start operands code i ∧ i < k ∧ k ≤ i + operands a

/-- The next instruction of a cut stream is behind the operands still to come, and these belong
to an instruction in front of the cut. -/
theorem start_pending (front rest : List α) :
    Start operands (front ++ rest) (front.length + pending operands 0 front) ∧
      (pending operands 0 front ≠ 0 → ∃ i < front.length, ∃ a, (front ++ rest)[i]? = some a ∧
        Start operands (front ++ rest) i ∧
          i + 1 + operands a = front.length + pending operands 0 front) := by
  induction front using List.reverseRecOn generalizing rest with
  | nil => exact ⟨.zero, fun h => absurd rfl h⟩
  | append_singleton front a ih =>
    obtain ⟨hstart, howner⟩ := ih (a :: rest)
    have hcode : front ++ [a] ++ rest = front ++ a :: rest := by simp
    have ha : (front ++ a :: rest)[front.length]? = some a := by simp
    have hpending : pending operands 0 (front ++ [a]) =
        pending operands (pending operands 0 front) [a] := pending_append 0 front [a]
    rw [hpending, hcode, length_append, length_singleton]
    cases hp : pending operands 0 front with
    | zero =>
      -- the item behind the cut was an instruction
      rw [hp, Nat.add_zero] at hstart
      exact ⟨hstart.next ha, fun _ => ⟨front.length, lt_succ_self _, a, ha, hstart, rfl⟩⟩
    | succ skip =>
      rw [hp] at hstart howner
      have hsum : front.length + 1 + skip = front.length + (skip + 1) := by omega
      obtain ⟨i, hi, b, hb, hsb, hend⟩ := howner (succ_ne_zero skip)
      change Start operands _ (front.length + 1 + skip) ∧ (skip ≠ 0 → _)
      rw [hsum]
      exact ⟨hstart, fun _ => ⟨i, lt_succ_of_lt hi, b, hb, hsb, hend.trans hsum.symm⟩⟩

/-- The items behind the cut that are operands of instructions in front of it. -/
theorem operandOf_front_iff {front rest : List α} {k : Nat} (hk : front.length ≤ k) :
    (∃ i < front.length, OperandOf operands (front ++ rest) i k) ↔
      k < front.length + pending operands 0 front := by
  obtain ⟨hstart, howner⟩ := @start_pending _ operands front rest
  constructor
  · rintro ⟨i, hi, a, ha, hsi, -, hle⟩
    have hgap : i + 1 + operands a ≤ front.length + pending operands 0 front :=
      hsi.gap hstart ha (Nat.lt_of_lt_of_le hi (Nat.le_add_right _ _))
    omega
  · intro hlt
    obtain ⟨i, hi, a, ha, hsi, hend⟩ := howner fun h => by omega
    exact ⟨i, hi, a, ha, hsi, Nat.lt_of_lt_of_le hi hk, by omega⟩

/-- There are as many of them as are pending, if the stream is long enough. -/
theorem ncard_operands (front rest : List α) : {k | front.length ≤ k ∧ k < (front ++ rest).length ∧
      ∃ i < front.length, OperandOf operands (front ++ rest) i k}.ncard =
      min (pending operands 0 front) rest.length := by
  have hset : {k | front.length ≤ k ∧ k < (front ++ rest).length ∧
      ∃ i < front.length, OperandOf operands (front ++ rest) i k} =
      ↑(Finset.Ico front.length (front.length + min (pending operands 0 front) rest.length)) := by
    ext k
    simp only [mem_ofPred_eq, Finset.coe_Ico, mem_Ico, length_append]
    refine and_congr_right fun hk => ?_
    rw [operandOf_front_iff hk]
    omega
  rw [hset, ncard_coe_finset, card_Ico, Nat.add_sub_cancel_left]

end InstructionStream
