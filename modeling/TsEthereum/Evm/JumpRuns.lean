-- SUMMARY: Running with jump tables is running on the bytes of the code.
import TsEthereum.Evm.JumpTables
import TsEthereum.Evm.OpcodeFrames
import TsEthereum.Evm.RunCall

/-!
# Runs with jump tables

The loop with the tables and the loop on the bytes go through the same states, round
by round, as long as the program counter is at an instruction. It stays at one, but
nothing makes it start at one.
-/

open Program InstructionStream

/-! ## Steps that are alike -/

namespace Interpreter

/-- The same frame, up to the place in the code. -/
def SameButPlace (i j : Interpreter) : Prop :=
  ∃ programCounter opCode, j = { i with runState := { i.runState with programCounter, opCode } }

theorem SameButPlace.refl (i : Interpreter) : SameButPlace i i := ⟨_, _, rfl⟩

/-- The same outcome, and the same state where it is no error. -/
structure Alike (x y : Except Throw Unit × Interpreter) : Prop where
  outcome : y.1 = x.1
  ok : x.1 = .ok () → y.2 = x.2
  ended : SameButPlace x.2 y.2

theorem Alike.refl (x : Except Throw Unit × Interpreter) : Alike x x := ⟨rfl, fun _ => rfl, .refl _⟩

theorem Alike.bind {α : Type} {p : Run α} {f g : α → Run Unit} {i : Interpreter}
    (h : ∀ a i', p i = (.ok a, i') → Alike (f a i') (g a i')) :
    Alike ((p >>= f) i) ((p >>= g) i) := by
  rcases hp : p i with ⟨e | a, i'⟩
  · have hleft : (p >>= f) i = (.error e, i') := bind_of_error hp
    have hright : (p >>= g) i = (.error e, i') := bind_of_error hp
    rw [hleft, hright]
    exact .refl _
  · have hleft : (p >>= f) i = f a i' := bind_of_ok hp
    have hright : (p >>= g) i = g a i' := bind_of_ok hp
    rw [hleft, hright]
    exact h a i' hp

/-! ## The place in the code -/

/-- The same place in the same code. -/
def SamePlace (i i' : Interpreter) : Prop :=
  i'.runState.programCounter = i.runState.programCounter ∧
    i'.runState.opCode = i.runState.opCode ∧ i'.runState.code = i.runState.code

instance : IsPreorder Interpreter SamePlace where
  refl _ := ⟨rfl, rfl, rfl⟩
  trans _ _ _ h h' := ⟨h'.1.trans h.1, h'.2.1.trans h.2.1, h'.2.2.trans h.2.2⟩

theorem SamePlace.ordinary (evm : EVM) : Ordinary evm SamePlace where
  routine _ _ h := ⟨h.programCounter, h.opCode, h.code⟩
  stipend _ := ⟨rfl, rfl, rfl⟩

theorem SamePlace.of_run {α : Type} {p : Run α} (hp : p.Keeps SamePlace) {i i' : Interpreter}
    {outcome : Except Throw α} (hrun : p i = (outcome, i')) : SamePlace i i' := by
  have h := hp.outcome i
  rw [hrun] at h
  exact h

def AtStart (i : Interpreter) : Prop :=
  Start pushSize i.runState.code i.runState.programCounter

end Interpreter

open Interpreter

/-! ## Handlers -/

/-- The handler gives the same with both tables, except for the place at which it fails. -/
structure LocalAlike (x y : LocalState × Except LocalThrow Unit) : Prop where
  outcome : y.2 = x.2
  stack : y.1.stack = x.1.stack
  memory : y.1.memory = x.1.memory
  programCounter : x.2 = .ok () → y.1.programCounter = x.1.programCounter

theorem LocalAlike.refl (x : LocalState × Except LocalThrow Unit) : LocalAlike x x :=
  ⟨rfl, rfl, rfl, fun _ => rfl⟩

variable {evm : EVM} {other : Nat → StackHandler} {runCall : RunMessage} {t : JumpTables}

theorem opPUSH_alike {r : RunState} {env : Env} {s : EvmState}
    (hpush : t.shouldDoJumpAnalysis = false →
      t.cachedPushes r.programCounter = some (pushValue r.code r.programCounter (r.opCode - 0x5f))) :
    LocalAlike (opPUSH .fresh r env s) (opPUSH t r env s) := by
  cases hmode : t.shouldDoJumpAnalysis with
  | true =>
    have hsame : opPUSH t r env s = opPUSH .fresh r env s := by simp [opPUSH, hmode, JumpTables.fresh]
    rw [hsame]
    exact .refl _
  | false =>
    simp only [opPUSH, hmode, hpush hmode, JumpTables.fresh, loadedBytes_eq, if_true,
      Bool.true_eq_false, if_false]
    split
    · exact ⟨rfl, rfl, rfl, nofun⟩
    · exact .refl _

/-- What the tables must have for the opcode at hand. -/
structure Serves (t : JumpTables) (op : Nat) (r : RunState) : Prop where
  jumps : op = 0x56 ∨ op = 0x57 → ∀ dest, t.jumpIsValid dest = isDestination r.code dest
  pushes : 0x60 ≤ op ∧ op ≤ 0x7f → t.shouldDoJumpAnalysis = false →
    t.cachedPushes r.programCounter = some (pushValue r.code r.programCounter (r.opCode - 0x5f))

theorem localHandlers_alike (keccak256 : Bytes → Bytes) {op : Nat} {r : RunState} (env : Env)
    (s : EvmState) (h : Serves t op r) :
    LocalAlike (localHandlers keccak256 other (fun r => isDestination r.code) .fresh op r env s)
      (localHandlers keccak256 other (fun _ => t.jumpIsValid) t op r env s) := by
  unfold localHandlers
  by_cases hjump : op = 0x56 ∨ op = 0x57
  · have hvalid : t.jumpIsValid = isDestination r.code := funext (h.jumps hjump)
    rcases hjump with rfl | rfl
    · simp only [if_true, hvalid]
      exact .refl _
    · simp only [if_true, hvalid]
      exact .refl _
  · push Not at hjump
    rw [if_neg hjump.1, if_neg hjump.2, if_neg hjump.1, if_neg hjump.2]
    split
    case isTrue hpush => exact opPUSH_alike (h.pushes hpush)
    case isFalse => exact .refl _

namespace Interpreter

/-- A local opcode in one go. -/
theorem localOp_run (evm : EVM) (op : Nat) (i : Interpreter) :
    localOp evm op i = ofLocal (evm.handlers op i.runState i.env i.evm).2
      { i with runState := { i.runState with
        programCounter := (evm.handlers op i.runState i.env i.evm).1.programCounter
        stack := (evm.handlers op i.runState i.env i.evm).1.stack
        memory := (evm.handlers op i.runState i.env i.evm).1.memory } } := rfl

variable {op : Nat} {i : Interpreter}

theorem localOp_alike {hs hs' : Nat → LocalHandler}
    (h : LocalAlike (hs op i.runState i.env i.evm) (hs' op i.runState i.env i.evm)) :
    Alike (localOp { evm with handlers := hs } op i) (localOp { evm with handlers := hs' } op i) := by
  rw [localOp_run, localOp_run, h.outcome, h.stack, h.memory]
  cases houtcome : (hs op i.runState i.env i.evm).2 with
  | ok =>
    rw [h.programCounter houtcome]
    exact .refl _
  | error e => exact ⟨rfl, nofun, _, _, rfl⟩

/-- The opcodes that are not local do not read the handlers. -/
theorem opHandler_alike {hs hs' : Nat → LocalHandler}
    (h : LocalAlike (hs op i.runState i.env i.evm) (hs' op i.runState i.env i.evm)) :
    Alike (opHandler { evm with handlers := hs } runCall op i)
      (opHandler { evm with handlers := hs' } runCall op i) := by
  unfold opHandler
  split
  case h_18 => exact localOp_alike h
  all_goals exact .refl _

/-- The opcodes whose handlers set the program counter. -/
def Moves (op : Nat) : Prop := op = 0x56 ∨ op = 0x57 ∨ 0x60 ≤ op ∧ op ≤ 0x7f

theorem opHandler_local (h : Moves op) : opHandler evm runCall op = localOp evm op := by
  unfold Moves at h
  unfold opHandler
  split <;> first | rfl | omega

theorem handlers_of_not_moves (h : ¬Moves op) :
    (evm.decoding other).handlers op = (other op).local := by
  unfold Moves at h
  push Not at h
  simp only [EVM.decoding, localHandlers, if_neg h.1, if_neg h.2.1]
  exact if_neg fun hpush => absurd hpush.2 (Nat.not_le_of_lt (h.2.2 hpush.1))

theorem localOp_samePlace (h : ¬Moves op) : (localOp (evm.decoding other) op).Keeps SamePlace := by
  constructor
  intro i
  rw [localOp_run, handlers_of_not_moves h]
  cases ((other op).local i.runState i.env i.evm).2 <;> exact ⟨rfl, rfl, rfl⟩

variable {b : UInt8}

theorem pushRange_iff : 0x60 ≤ b ∧ b ≤ 0x7f ↔ 0x60 ≤ b.toNat ∧ b.toNat ≤ 0x7f :=
  and_congr UInt8.le_iff_toNat_le UInt8.le_iff_toNat_le

theorem start_of_isDestination {code : Bytes} {dest : Nat} (h : isDestination code dest = true) :
    Start pushSize code dest := by
  obtain ⟨hb, hmark⟩ := of_decide_eq_true h
  exact (marks_iff (List.getElem?_eq_some_iff.mp hb).1).mp hmark

theorem jumpTo_start (keccak256 : Bytes → Bytes) {dest : Int} {stack : List Int} {r : RunState}
    {env : Env} (hok : (jumpTo keccak256 (isDestination r.code) dest stack r env).2 = .ok ()) :
    Start pushSize r.code
      (jumpTo keccak256 (isDestination r.code) dest stack r env).1.programCounter := by
  revert hok
  unfold jumpTo
  dsimp only
  split
  · exact nofun
  · split
    case isTrue => exact nofun
    case isFalse hvalid =>
      exact fun _ => start_of_isDestination (Bool.eq_true_of_not_eq_false hvalid)

/-- Where a handler that sets the program counter leaves it. -/
theorem localHandlers_start (keccak256 : Bytes → Bytes) {pc : Nat} {r : RunState}
    (hstart : Start pushSize r.code pc) (hb : r.code[pc]? = some b) (env : Env) (s : EvmState)
    (hpc : r.programCounter = pc + 1) (hop : r.opCode = b.toNat) (hmoves : Moves b.toNat)
    (hok : (localHandlers keccak256 other (fun r => isDestination r.code) .fresh b.toNat r env s).2 =
      .ok ()) : Start pushSize r.code
      (localHandlers keccak256 other (fun r => isDestination r.code) .fresh b.toNat r env
        s).1.programCounter := by
  have hnext := hstart.next hb
  revert hok
  unfold localHandlers
  split
  case isTrue hjump =>
    unfold opJUMP
    dsimp only
    split
    · exact jumpTo_start keccak256
    · rintro ⟨⟩
  case isFalse hjump =>
    split
    case isTrue hjumpi =>
      have hsize : pushSize b = 0 := by
        obtain rfl : b = 0x57 := UInt8.toNat_inj.mp hjumpi
        rfl
      rw [hsize, Nat.add_zero, ← hpc] at hnext
      unfold opJUMPI
      dsimp only
      split
      · split
        · exact jumpTo_start keccak256
        · exact fun _ => hnext
      · rintro ⟨⟩
    case isFalse hjumpi =>
      have hpush := (hmoves.resolve_left hjump).resolve_left hjumpi
      have hsize : pushSize b = r.opCode - 0x5f := by
        rw [pushSize, if_pos (pushRange_iff.mpr hpush), hop]
      rw [hsize, ← hpc] at hnext
      rw [if_pos hpush]
      simp only [opPUSH, JumpTables.fresh, Bool.true_eq_false, if_false]
      split
      · rintro ⟨⟩
      · exact fun _ => hnext

/-! ## Steps -/

/-- An opcode at the start of an instruction leaves the program counter at one. -/
theorem opHandler_atStart {pc : Nat} {i' : Interpreter} (hstart : Start pushSize i.runState.code pc)
    (hb : i.runState.code[pc]? = some b) (hpc : i.runState.programCounter = pc + 1)
    (hop : i.runState.opCode = b.toNat)
    (hrun : opHandler (evm.decoding other) runCall b.toNat i = (.ok (), i')) :
    i'.AtStart ∧ i'.runState.code = i.runState.code := by
  by_cases hmoves : Moves b.toNat
  · rw [opHandler_local hmoves, localOp_run] at hrun
    cases houtcome : ((evm.decoding other).handlers b.toNat i.runState i.env i.evm).2 with
    | error e =>
      rw [houtcome] at hrun
      cases hrun
    | ok =>
      rw [houtcome] at hrun
      obtain rfl := (Prod.mk.inj hrun).2
      exact ⟨localHandlers_start evm.keccak256 hstart hb i.env i.evm hpc hop hmoves houtcome, rfl⟩
  · obtain ⟨hsame, -, hcode⟩ := SamePlace.of_run
      ((SamePlace.ordinary (evm.decoding other)).opHandler (localOp_samePlace hmoves)) hrun
    have hsize : pushSize b = 0 :=
      if_neg fun hpush => hmoves (.inr (.inr (pushRange_iff.mp hpush)))
    have hnext := hstart.next hb
    rw [hsize, Nat.add_zero, ← hpc, ← hsame, ← hcode] at hnext
    exact ⟨hnext, hcode⟩

theorem execute_atStart {opInfo : Opcode} {i' : Interpreter} (hstart : i.AtStart)
    (hb : i.runState.code[i.runState.programCounter]? = some b) (hop : i.runState.opCode = b.toNat)
    (hrun : execute (evm.decoding other) runCall ⟨b.toNat, opInfo⟩ i = (.ok (), i')) :
    i'.AtStart ∧ i'.runState.code = i.runState.code := by
  have hordinary := SamePlace.ordinary (evm.decoding other)
  obtain ⟨gas, i₁, hgas, hrest⟩ := ok_of_bind hrun
  obtain ⟨hpc₁, hop₁, hcode₁⟩ := SamePlace.of_run (hordinary.opGas _ _) hgas
  split at hrest
  case isTrue => cases hrest
  case isFalse =>
    obtain ⟨⟨⟩, i₂, huse, hrest⟩ := ok_of_bind hrest
    obtain ⟨hpc₂, hop₂, hcode₂⟩ := SamePlace.of_run (hordinary.useGas _) huse
    obtain ⟨⟨⟩, i₃, hadvance, hhandler⟩ := ok_of_bind hrest
    have hi₃ := (Prod.mk.inj hadvance).2
    have hcode : i₃.runState.code = i.runState.code :=
      (congrArg (fun i : Interpreter => i.runState.code) hi₃).symm.trans (hcode₂.trans hcode₁)
    have hpc : i₃.runState.programCounter = i.runState.programCounter + 1 :=
      (congrArg (fun i : Interpreter => i.runState.programCounter) hi₃).symm.trans
        (congrArg (· + 1) (hpc₂.trans hpc₁))
    have hop₃ : i₃.runState.opCode = b.toNat :=
      (congrArg (fun i : Interpreter => i.runState.opCode) hi₃).symm.trans
        (hop₂.trans (hop₁.trans hop))
    rw [← hcode] at hb ⊢
    exact opHandler_atStart (hcode ▸ hstart) hb hpc hop₃ hhandler

theorem execute_alike {entry : OpcodeMapEntry}
    (hserves : ∀ r : RunState, r.programCounter = i.runState.programCounter + 1 →
      r.opCode = i.runState.opCode → r.code = i.runState.code → Serves t entry.code r) :
    Alike (execute (evm.decoding other) runCall entry i)
      (execute (evm.withTables other t) runCall entry i) := by
  have hordinary := SamePlace.ordinary evm
  refine Alike.bind fun gas i₁ hgas => ?_
  obtain ⟨hpc₁, hop₁, hcode₁⟩ := SamePlace.of_run (hordinary.opGas _ _) hgas
  split
  case isTrue => exact .refl _
  case isFalse =>
    refine Alike.bind fun _ i₂ huse => Alike.bind fun _ i₃ hadvance => ?_
    obtain ⟨hpc₂, hop₂, hcode₂⟩ := SamePlace.of_run (hordinary.useGas _) huse
    obtain rfl := (Prod.mk.inj hadvance).2
    exact opHandler_alike (localHandlers_alike evm.keccak256 _ _
      (hserves _ (congrArg (· + 1) (hpc₂.trans hpc₁)) (hop₂.trans hop₁) (hcode₂.trans hcode₁)))

end Interpreter

/-! ## Rounds -/

/-- An opcode that the hardfork does not have traps before anything is done. -/
theorem Interpreter.execute_invalid {entry : OpcodeMapEntry} (hgas : entry.opcodeInfo.dynamicGas = false)
    (hinvalid : entry.opcodeInfo.isInvalid = true) (i : Interpreter) :
    execute evm runCall entry i = (.error (.evmError .INVALID_OPCODE), i) := by
  simp only [execute, opGas, hgas, Bool.false_eq_true, if_false, ret_andThen, hinvalid, if_true]
  rfl

theorem lookupOpInfo_of_not_available {op : Nat} (h : Opcode.available evm.common op = false) :
    evm.lookupOpInfo op = evm.lookupOpInfo 0xfe := by
  simp [EVM.lookupOpInfo, h]

theorem ofExcept_run {ε σ α : Type} (x : Except ε α) (s : σ) :
    (ofExcept x : Program ε σ α) s = (x, s) := by
  cases x <;> rfl

namespace CachedInterpreter

/-- There is no analysis yet, or it is right. -/
def Right (evm : EVM) (code : Bytes) (t : JumpTables) : Prop := t = .fresh ∨ t.Analysed evm code

theorem Right.analysed {code : Bytes} (h : Right evm code t) (hmode : t.shouldDoJumpAnalysis = false) :
    t.Analysed evm code := by
  rcases h with rfl | h
  · cases hmode
  · exact h

/-- What the loop finds at the start of an instruction. -/
theorem fetch_run {c : CachedInterpreter} {b : UInt8} (hstart : c.interpreter.AtStart)
    (hb : c.interpreter.runState.code[c.interpreter.runState.programCounter]? = some b)
    (hright : Right evm c.interpreter.runState.code c.tables) :
    ∃ opCode obj t, fetch evm b c = (.ok (opCode, obj), { c with tables := t }) ∧
      Right evm c.interpreter.runState.code t ∧
      (b = 0x56 ∨ b = 0x57 → t.Analysed evm c.interpreter.runState.code) ∧
      obj.getD (evm.opcodeEntry opCode) = evm.opcodeEntry b.toNat ∧
      (Opcode.available evm.common b.toNat = true → opCode = b.toNat) := by
  have hanalysed := JumpTables.analysed evm c.interpreter.runState.code
  cases hmode : c.tables.shouldDoJumpAnalysis with
  | true =>
    by_cases hswitch : b = 0x56 ∨ b = 0x57 ∨ b = 0x5e
    · refine ⟨b.toNat, none, .getValidJumpDestinations evm c.interpreter.runState.code, ?_,
        .inr hanalysed, fun _ => hanalysed, rfl, fun _ => rfl⟩
      simp only [fetch, bind_of_ok (get_run c), hmode, if_true, Program.when, if_pos hswitch]
      rfl
    · refine ⟨b.toNat, none, c.tables, ?_, hright, fun h => ?_, rfl, fun _ => rfl⟩
      · simp only [fetch, bind_of_ok (get_run c), hmode, if_true, Program.when, if_neg hswitch]
        rfl
      · exact absurd (h.imp_right .inl) hswitch
  | false =>
    have htables := hright.analysed hmode
    have hentry := htables.opcodes _ b hstart hb
    refine ⟨(evm.opcodeEntry b.toNat).code, some (evm.opcodeEntry b.toNat), c.tables, ?_, hright,
      fun _ => htables, rfl, fun havailable => ?_⟩
    · simp only [fetch, bind_of_ok (get_run c), hmode, Bool.false_eq_true, if_false, hentry,
        Option.join_some]
      rfl
    · simp [EVM.opcodeEntry, havailable]

/-- The tables have what the opcode at hand needs of them. -/
theorem serves_of_right {i : Interpreter} {b : UInt8} (hstart : i.AtStart)
    (hb : i.runState.code[i.runState.programCounter]? = some b)
    (hright : Right evm i.runState.code t)
    (hjumps : b = 0x56 ∨ b = 0x57 → t.Analysed evm i.runState.code) {r : RunState}
    (hpc : r.programCounter = i.runState.programCounter + 1) (hop : r.opCode = b.toNat)
    (hcode : r.code = i.runState.code) : Serves t b.toNat r where
  jumps hjump dest := by
    have hbyte : b = 0x56 ∨ b = 0x57 :=
      hjump.imp (fun h => UInt8.toNat_inj.mp h) (fun h => UInt8.toNat_inj.mp h)
    rw [hcode]
    exact (hjumps hbyte).jumps dest
  pushes hpush hmode := by
    have hrange := pushRange_iff.mpr hpush
    have hsize : pushSize b = r.opCode - 0x5f := by rw [pushSize, if_pos hrange, hop]
    rw [hpc, hcode, ← hsize]
    exact (hright.analysed hmode).pushes _ b hstart hb (pushSize_pos.mpr hrange)

/-- A step on the bytes, and the step with the tables after `fetch`. -/
theorem runStep_alike {i : Interpreter} {b : UInt8} (hstart : i.AtStart)
    (hb : i.runState.code[i.runState.programCounter]? = some b)
    (hright : Right evm i.runState.code t)
    (hjumps : b = 0x56 ∨ b = 0x57 → t.Analysed evm i.runState.code) {opCode : Nat}
    {obj : Option OpcodeMapEntry}
    (hobj : obj.getD (evm.opcodeEntry opCode) = evm.opcodeEntry b.toNat)
    (hop : Opcode.available evm.common b.toNat = true → opCode = b.toNat) : Alike
      (Interpreter.runStep (evm.decoding other) runCall
        { i with runState := { i.runState with opCode := b.toNat } })
      (execute (evm.withTables other t) runCall (obj.getD (evm.opcodeEntry opCode))
        { i with runState := { i.runState with opCode } }) := by
  have hstep (j : Interpreter) : Interpreter.runStep (evm.decoding other) runCall j =
      execute (evm.decoding other) runCall ⟨j.runState.opCode, evm.lookupOpInfo j.runState.opCode⟩ j :=
    rfl
  rw [hstep, hobj]
  cases havailable : Opcode.available evm.common b.toNat with
  | true =>
    obtain rfl := hop havailable
    have hentry : evm.opcodeEntry b.toNat = ⟨b.toNat, evm.lookupOpInfo b.toNat⟩ := by
      simp [EVM.opcodeEntry, havailable]
    rw [hentry]
    exact execute_alike fun r hpc hop hcode =>
      serves_of_right hstart hb hright hjumps hpc hop hcode
  | false =>
    have hentry : evm.opcodeEntry b.toNat = ⟨0xfe, evm.lookupOpInfo 0xfe⟩ := by
      simp [EVM.opcodeEntry, havailable]
    rw [hentry, lookupOpInfo_of_not_available havailable]
    have hinvalid : evm.lookupOpInfo 0xfe = ⟨evm.feeBigInt 0xfe, false, true⟩ := by
      simp [EVM.lookupOpInfo]
    rw [execute_invalid (congrArg Opcode.dynamicGas hinvalid) (congrArg Opcode.isInvalid hinvalid),
      execute_invalid (congrArg Opcode.dynamicGas hinvalid) (congrArg Opcode.isInvalid hinvalid)]
    exact ⟨rfl, nofun, _, _, rfl⟩

/-- The loop with the tables is in the state of the loop on the bytes, at the start of an
instruction, and has no tables yet or the right ones. -/
structure Aligned (evm : EVM) (i : Interpreter) (c : CachedInterpreter) : Prop where
  interpreter : c.interpreter = i
  atStart : i.AtStart
  tables : Right evm i.runState.code c.tables

/-- The same frame where the loops have ended, up to the place in the code. -/
def Ended (i : Interpreter) (c : CachedInterpreter) : Prop := SameButPlace i c.interpreter

theorem stepResult_goesOn {outcome : Except Throw Unit} (h : stepResult outcome = .ok none) :
    outcome = .ok () := by
  unfold stepResult at h
  split at h <;> first | rfl | cases h

theorem round_matches {i : Interpreter} {c : CachedInterpreter} (h : Aligned evm i c) :
    Matches (Aligned evm) Ended (Interpreter.round (evm.decoding other) runCall i)
      (round evm other runCall c) := by
  obtain ⟨j, t₀⟩ := c
  obtain rfl : j = i := h.interpreter
  cases hb : j.runState.code[j.runState.programCounter]? with
  | none =>
    have hleft : Interpreter.round (evm.decoding other) runCall j = (.ok (some none), j) := by
      simp only [Interpreter.round, bind_of_ok (get_run j), hb]
      rfl
    have hright : round evm other runCall ⟨j, t₀⟩ = (.ok (some none), ⟨j, t₀⟩) := by
      simp only [round, bind_of_ok (get_run _), hb]
      rfl
    rw [hleft, hright]
    exact ⟨rfl, nofun, .refl j⟩
  | some b =>
    obtain ⟨opCode, obj, t, hfetch, hright, hjumps, hobj, hop⟩ := fetch_run h.atStart hb h.tables
    have halike := @runStep_alike evm other runCall t j b h.atStart hb hright hjumps opCode obj hobj hop
    have hleft : Interpreter.round (evm.decoding other) runCall j =
        (stepResult (Interpreter.runStep (evm.decoding other) runCall
          { j with runState := { j.runState with opCode := b.toNat } }).1,
        (Interpreter.runStep (evm.decoding other) runCall
          { j with runState := { j.runState with opCode := b.toNat } }).2) := by
      simp only [Interpreter.round, bind_of_ok (get_run j), hb]
      exact ofExcept_run _ _
    have hrightRun : round evm other runCall ⟨j, t₀⟩ =
        (stepResult (execute (evm.withTables other t) runCall (obj.getD (evm.opcodeEntry opCode))
          { j with runState := { j.runState with opCode } }).1,
        ⟨(execute (evm.withTables other t) runCall (obj.getD (evm.opcodeEntry opCode))
          { j with runState := { j.runState with opCode } }).2, t⟩) := by
      simp only [round, bind_of_ok (get_run _), hb, bind_of_ok hfetch]
      exact ofExcept_run _ _
    rw [hleft, hrightRun]
    refine ⟨congrArg stepResult halike.outcome, fun hgoesOn => ?_, halike.ended⟩
    have hok := stepResult_goesOn hgoesOn
    have hrun : Interpreter.runStep (evm.decoding other) runCall
        { j with runState := { j.runState with opCode := b.toNat } } = (.ok (), _) :=
      Prod.ext hok rfl
    have hat : ({ j with runState := { j.runState with opCode := b.toNat } } : Interpreter).AtStart :=
      h.atStart
    obtain ⟨hstart, hcode⟩ := execute_atStart hat hb rfl hrun
    exact ⟨halike.ok hok, hstart, hcode ▸ hright⟩

/-- Where the program counter is at the start of an instruction, the rounds of both loops are the
same. -/
theorem rounds_match (evm : EVM) (other : Nat → StackHandler) (runCall : RunMessage) (n : Nat)
    {i : Interpreter} (hstart : i.AtStart) :
    Matches (Aligned evm) Ended (rounds (Interpreter.round (evm.decoding other) runCall) n i)
      (rounds (round evm other runCall) n ⟨i, .fresh⟩) := by
  have hended (i : Interpreter) (c : CachedInterpreter) (h : Aligned evm i c) : Ended i c :=
    h.interpreter ▸ .refl _
  exact rounds_matches hended (fun _ _ h => round_matches h) n ⟨rfl, hstart, .inl rfl⟩

/-! A frame at some place in its code, on an EVM whose only other opcode is PUSH0. -/

def pushZero (op : Nat) : StackHandler := fun r _ _ =>
  if op = 0x5f then ((0 :: r.stack, r.memory), .ok ())
  else ((r.stack, r.memory), .error (.trap ⟨.INVALID_OPCODE, nofun⟩))

def frameAt (code : Bytes) (programCounter : Nat) : Interpreter :=
  let i := EVM.enter (.new 100) code false .new ⟨0, .zero⟩ 100 EVM.withSlot
  { i with runState := { i.runState with programCounter } }

def noCalls : RunMessage := fun _ => .throw .outOfFuel

/-- A jump over a byte to a JUMPDEST. -/
theorem rounds_match_jump : (rounds (round (EVM.bare .Cancun) pushZero noCalls) 2
      ⟨frameAt [0x60, 0x04, 0x56, 0x00, 0x5b] 0, .fresh⟩).2.interpreter.runState.programCounter = 4 ∧
      Matches (Aligned (EVM.bare .Cancun)) Ended
        (rounds (Interpreter.round ((EVM.bare .Cancun).decoding pushZero) noCalls) 2
          (frameAt [0x60, 0x04, 0x56, 0x00, 0x5b] 0))
        (rounds (round (EVM.bare .Cancun) pushZero noCalls) 2
          ⟨frameAt [0x60, 0x04, 0x56, 0x00, 0x5b] 0, .fresh⟩) :=
  ⟨by decide +kernel, rounds_match _ _ _ 2 Start.zero⟩

/-- A run that starts in push data: there is no entry in the table behind its first JUMPI. -/
theorem rounds_differ_in_data :
    ¬∀ (evm : EVM) (other : Nat → StackHandler) (runCall : RunMessage) (n : Nat) (i : Interpreter),
      i.runState.programCounter < i.runState.code.length →
      (rounds (round evm other runCall) n ⟨i, .fresh⟩).1 =
        (rounds (Interpreter.round (evm.decoding other) runCall) n i).1 := by
  intro hclaim
  have hsame := hclaim (EVM.bare .Cancun) pushZero noCalls 4
    (frameAt [0x64, 0x5f, 0x5f, 0x57, 0x00, 0x00] 1) (by decide)
  revert hsame
  decide +kernel

end CachedInterpreter
