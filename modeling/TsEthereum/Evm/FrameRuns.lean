-- SUMMARY: Every opcode keeps the invariant of its frame, and so does every run of the interpreter.
import TsEthereum.Evm.FrameSteps

/-!
# Runs of a frame

The checks of static calls sit partly in the gas handlers and partly in the
opcodes. `Checked` is what the gas handler has established when the opcode runs.
-/

open Program EvmState

namespace Interpreter

open Quietly Maintains Opcode

variable {evm : EVM} {isStatic : Bool} {s : EvmState} {i i' : Interpreter} {runCall : RunMessage} {α β : Type}

/-! ## What the gas handlers check -/

/-- The opcodes whose gas handlers trap in a static call. -/
def staticallyChecked : List Nat := [0x55, 0xa0, 0xa1, 0xa2, 0xa3, 0xa4, 0xf0, 0xf5, 0xff]

structure Checked (op : Nat) (i : Interpreter) : Prop where
  writes : op ∈ staticallyChecked → i.env.isStatic = false
  value : op = 0xf1 → i.env.isStatic = true → (i.runState.stack.take 7).getD 2 0 = 0

/-- The same frame, with its stack. -/
structure SameStack (i i' : Interpreter) : Prop extends SameFrame i i' where
  stack : i'.runState.stack = i.runState.stack

theorem SameStack.refl (i : Interpreter) : SameStack i i := ⟨.refl i, rfl⟩

theorem SameStack.trans {i'' : Interpreter} (h : SameStack i i') (h' : SameStack i' i'') :
    SameStack i i'' :=
  ⟨h.toSameFrame.trans h'.toSameFrame, h'.stack.trans h.stack⟩

theorem Checked.same {op : Nat} (h : Checked op i) (hsame : SameStack i i') : Checked op i' where
  writes := fun hop => by rw [hsame.env]; exact h.writes hop
  value := fun hop hstatic => by
    rw [hsame.env] at hstatic
    rw [hsame.stack]
    exact h.value hop hstatic

/-- The operation keeps the stack. -/
def KeepsStack (p : Run α) : Prop :=
  ∀ i, p.wp (fun _ i' => i'.runState.stack = i.runState.stack) (fun _ _ => True) i

theorem Quietly.sameStack {p : Run α} (hp : Quietly p) (hstack : KeepsStack p) (i : Interpreter) :
    p.wp (fun _ i' => SameStack i i')
      (fun e i' => SameFrame i i' ∧ e ≠ .evmError .CODESTORE_OUT_OF_GAS) i :=
  wp_mono (wp_and (hp i) (hstack i)) (fun _ _ h => ⟨h.1, h.2⟩) (fun _ _ h => h.1)

theorem KeepsStack.pure (a : α) : KeepsStack (pure a : Run α) := fun _ => rfl

theorem KeepsStack.bind {p : Run α} {f : α → Run β} (hp : KeepsStack p)
    (hf : ∀ a, KeepsStack (f a)) : KeepsStack (p >>= f) := by
  refine fun i => (wp_bind _ _).mpr (wp_mono (hp i) (fun a i' h => ?_) (fun _ _ h => h))
  exact wp_mono (hf a i') (fun _ _ h' => h'.trans h) (fun _ _ h' => h')

theorem KeepsStack.get : KeepsStack (Program.get : Run Interpreter) := fun _ => rfl

theorem KeepsStack.throw (e : Throw) : KeepsStack (.throw e : Run α) := fun _ => trivial

theorem KeepsStack.when {c : Prop} [Decidable c] {p : Run Unit} (hp : KeepsStack p) :
    KeepsStack (Program.when c p) :=
  fun i => wp_when (fun _ => hp i) (fun _ => rfl)

theorem KeepsStack.liftEvm (p : Call α) : KeepsStack (Interpreter.liftEvm p) :=
  fun _ => (wp_onPart _ _ _).mpr (wp_of_forall (fun _ _ => rfl) (fun _ _ => trivial))

theorem KeepsStack.onRunState {f : RunState → RunState} (hf : ∀ r, (f r).stack = r.stack) :
    KeepsStack (Interpreter.onRunState f) :=
  fun i => hf i.runState

theorem KeepsStack.warmAll (ws : List Warm) : KeepsStack (Interpreter.warmAll ws) := by
  induction ws with
  | nil => exact .pure ()
  | cons w ws ih =>
    refine KeepsStack.bind ?_ fun _ => ih
    cases w <;> exact .liftEvm _

theorem KeepsStack.ofLocal (r : Except LocalThrow α) : KeepsStack (Interpreter.ofLocal r) := by
  cases r with
  | ok a => exact .pure a
  | error e => exact .throw _

theorem KeepsStack.charge (op : Nat) (gas : Int) : KeepsStack (Interpreter.charge evm op gas) :=
  .bind .get fun _ => .bind (.onRunState fun _ => rfl) fun _ => .bind (.warmAll _) fun _ => .ofLocal _

theorem KeepsStack.useGas (amount : Int) : KeepsStack (Interpreter.useGas amount) :=
  .bind (.onRunState fun _ => rfl) fun _ => .bind .get fun _ =>
    .when (.bind (.onRunState fun _ => rfl) fun _ => .throw _)

theorem trapStatic_spec (i : Interpreter) :
    trapStatic.wp (fun _ i' => i' = i ∧ i.env.isStatic = false)
      (fun e i' => i' = i ∧ e = .evmError .STATIC_STATE_CHANGE) i := by
  refine (wp_bind _ _).mpr (wp_get.mpr (wp_when (fun _ => ⟨rfl, rfl⟩) (fun h => ⟨rfl, ?_⟩)))
  simpa using h

theorem popN_spec (num : Nat) (i : Interpreter) :
    (popN num).wp (fun args i' => args = i.runState.stack.take num ∧ SameFrame i i')
      (fun e i' => i' = i ∧ e = .evmError .STACK_UNDERFLOW) i := by
  simp only [popN, peek, wp_bind, wp_get]
  exact wp_ite (fun _ => ⟨rfl, rfl⟩) (fun _ => ⟨rfl, .refl _, rfl, rfl, rfl⟩)

theorem charge_spec (op : Nat) (gas : Int) (i : Interpreter) :
    (charge evm op gas).wp (fun _ i' => SameStack i i')
      (fun e i' => SameFrame i i' ∧ e ≠ .evmError .CODESTORE_OUT_OF_GAS) i :=
  (Quietly.charge evm op gas).sameStack (.charge op gas) i

/-- Where the gas handler returns, its opcode may change what it changes. -/
theorem gasHandler_spec (op : Nat) (gas : Int) (i : Interpreter) :
    (gasHandler evm op gas).wp (fun _ i' => SameStack i i' ∧ Checked op i')
      (fun e i' => SameFrame i i' ∧ e ≠ .evmError .CODESTORE_OUT_OF_GAS) i := by
  unfold gasHandler
  refine wp_ite (fun hop => ?_) fun hop => wp_ite (fun hcall => ?_) fun hcall => ?_
  · refine (wp_bind _ _).mpr (wp_mono (trapStatic_spec i) ?_ ?_)
    · rintro _ _ ⟨rfl, hstatic⟩
      refine wp_mono (charge_spec op gas _) (fun _ i' hsame => ⟨hsame, ?_⟩) (fun _ _ h => h)
      refine Checked.same ⟨fun _ => hstatic, fun hcall => ?_⟩ hsame
      exact absurd hop (by rw [hcall]; decide)
    · rintro e _ ⟨rfl, rfl⟩
      exact ⟨.refl _, by simp⟩
  · simp only [peek, wp_bind, wp_get]
    refine wp_ite (fun _ => ⟨.refl _, by simp⟩) (fun _ => ?_)
    refine wp_ite (fun _ => ⟨.refl _, by simp⟩) (fun hvalue => ?_)
    refine wp_mono (charge_spec op gas i) (fun _ i' hsame => ⟨hsame, ?_⟩) (fun _ _ h => h)
    refine Checked.same ⟨fun hmem => absurd hmem hop, fun _ hstatic => ?_⟩ hsame
    simpa [hstatic] using hvalue
  · refine wp_mono (charge_spec op gas i) (fun _ i' hsame => ⟨hsame, ?_⟩) (fun _ _ h => h)
    exact ⟨fun hmem => absurd hmem hop, fun heq => absurd heq hcall⟩

/-! ## Handlers -/

theorem Quietly.writeCallOutput (outOffset outLength : Int) :
    Quietly (Interpreter.writeCallOutput outOffset outLength) := .onRunState _

/-- The items are popped first. -/
theorem popN_bind {num : Nat} {f : List Int → Run α} (h : FrameInv evm isStatic s i)
    (hf : ∀ i', SameFrame i i' → FrameInv evm isStatic s i' →
      Maintains evm isStatic s (f (i.runState.stack.take num)) i') :
    Maintains evm isStatic s (popN num >>= f) i := by
  refine (wp_bind _ _).mpr (wp_mono (popN_spec num i) ?_ ?_)
  · rintro _ i' ⟨rfl, hsame⟩
    exact hf i' hsame (h.same hsame)
  · rintro e _ ⟨rfl, rfl⟩
    exact .of_kept (by simp) h.toFrameKept

/-- What comes after the check of a static call may write. -/
theorem trapStatic_bind {f : Unit → Run α} (h : FrameInv evm isStatic s i)
    (hf : i.env.isStatic = false → Maintains evm isStatic s (f ()) i) :
    Maintains evm isStatic s (trapStatic >>= f) i := by
  refine (wp_bind _ _).mpr (wp_mono (trapStatic_spec i) ?_ ?_)
  · rintro _ _ ⟨rfl, hstatic⟩
    exact hf hstatic
  · rintro e _ ⟨rfl, rfl⟩
    exact .of_kept (by simp) h.toFrameKept

theorem opSSTORE_maintains (hs : s.stateManager.Ready) (h : FrameInv evm isStatic s i)
    (hstatic : i.env.isStatic = false) : Maintains evm isStatic s opSSTORE i := by
  refine popN_bind h fun i₁ hsame h₁ => ?_
  exact storageStore_maintains hs h₁ (by rw [hsame.env, hstatic]) _ _

theorem opTSTORE_maintains (h : FrameInv evm isStatic s i)
    (hactive : evm.common.isActivatedEIP 1153 = true) : Maintains evm isStatic s opTSTORE i := by
  refine trapStatic_bind h fun hstatic => popN_bind h fun i₁ hsame h₁ => ?_
  exact transientStorageStore_maintains h₁ (by rw [hsame.env, hstatic]) hactive _ _

theorem opLOG_maintains (h : FrameInv evm isStatic s i) (hstatic : i.env.isStatic = false) :
    Maintains evm isStatic s opLOG i := by
  refine (wp_bind _ _).mpr (wp_get.mpr (popN_bind h fun i₁ hsame₁ h₁ => ?_))
  generalize i.runState.opCode - 0xa0 = topicsCount
  refine popN_bind h₁ fun i₂ hsame₂ h₂ => ?_
  refine quiet_bind (.readMemory _ _) h₂ fun mem i₃ hsame₃ h₃ => ?_
  refine log_maintains h₃ ?_ _ _ _
  rw [hsame₃.env, hsame₂.env, hsame₁.env, hstatic]

section Messages

variable (hspec : MessageSpec evm runCall) (hs : s.stateManager.Ready) (h : FrameInv evm isStatic s i)

include hspec hs h

theorem opCreate_maintains (hstatic : i.env.isStatic = false) (value offset length : Int)
    (salt : Option Bytes) :
    Maintains evm isStatic s (opCreate evm runCall value offset length salt) i := by
  refine wp_ite (fun _ => of_quiet (.trap (by decide)) h) fun _ => ?_
  refine quiet_bind .takeGasLimit h fun gasLimit i₁ hsame₁ h₁ => ?_
  refine quiet_bind (.readMemory _ _) h₁ fun data i₂ hsame₂ h₂ => ?_
  refine wp_ite (fun _ => of_quiet (.push 0) h₂) fun _ => ?_
  refine bind_quiet (create_maintains hspec hs h₂ ?_ _ _ _ _) fun ret => .push ret
  rw [hsame₂.env, hsame₁.env, hstatic]

theorem opCREATE_maintains (hstatic : i.env.isStatic = false) :
    Maintains evm isStatic s (opCREATE evm runCall) i := by
  refine popN_bind h fun i₁ hsame h₁ => ?_
  exact opCreate_maintains hspec hs h₁ (by rw [hsame.env, hstatic]) _ _ _ _

theorem opCREATE2_maintains : Maintains evm isStatic s (opCREATE2 evm runCall) i := by
  refine trapStatic_bind h fun hstatic => popN_bind h fun i₁ hsame h₁ => ?_
  exact opCreate_maintains hspec hs h₁ (by rw [hsame.env, hstatic]) _ _ _ _

theorem call_maintains (gasLimit : Int) (address : Address) (value : Int) (data : Bytes)
    (hvalue : i.env.isStatic = true → value = 0) :
    Maintains evm isStatic s (call evm runCall gasLimit address value data) i := by
  refine (wp_bind _ _).mpr (wp_get.mpr (newMessage_bind fun hpos => ?_))
  exact baseCall_maintains hspec hs h (Nat.succ_ne_zero _) hpos (Option.some_ne_none _)
    fun hstatic => ⟨hstatic, .inr (.inl (hvalue hstatic))⟩

theorem callCode_maintains (gasLimit : Int) (address : Address) (value : Int) (data : Bytes) :
    Maintains evm isStatic s (callCode evm runCall gasLimit address value data) i := by
  refine (wp_bind _ _).mpr (wp_get.mpr (newMessage_bind fun hpos => ?_))
  exact baseCall_maintains hspec hs h (Nat.succ_ne_zero _) hpos (Option.some_ne_none _)
    fun hstatic => ⟨hstatic, .inr (.inr rfl)⟩

theorem callStatic_maintains (gasLimit : Int) (address : Address) (data : Bytes) :
    Maintains evm isStatic s (callStatic evm runCall gasLimit address 0 data) i := by
  refine (wp_bind _ _).mpr (wp_get.mpr (newMessage_bind fun hpos => ?_))
  exact baseCall_maintains hspec hs h (Nat.succ_ne_zero _) hpos (Option.some_ne_none _)
    fun _ => ⟨rfl, .inr (.inl rfl)⟩

theorem callDelegate_maintains (gasLimit : Int) (address : Address) (value : Int) (data : Bytes) :
    Maintains evm isStatic s (callDelegate evm runCall gasLimit address value data) i := by
  refine (wp_bind _ _).mpr (wp_get.mpr (newMessage_bind fun hpos => ?_))
  exact baseCall_maintains hspec hs h (Nat.succ_ne_zero _) hpos (Option.some_ne_none _)
    fun hstatic => ⟨hstatic, .inl rfl⟩

theorem opCALL_maintains (hvalue : i.env.isStatic = true → (i.runState.stack.take 7).getD 2 0 = 0) :
    Maintains evm isStatic s (opCALL evm runCall) i := by
  refine popN_bind h fun i₁ hsame₁ h₁ => ?_
  refine Maintains.quiet_bind (.readMemory _ _) h₁ fun data i₂ hsame₂ h₂ => ?_
  refine Maintains.quiet_bind .takeGasLimit h₂ fun gasLimit i₃ hsame₃ h₃ => ?_
  refine Maintains.quiet_bind (.addCallStipend evm _ _) h₃ fun gasLimit i₄ hsame₄ h₄ => ?_
  have henv : i₄.env = i.env := (hsame₁.trans (hsame₂.trans (hsame₃.trans hsame₄))).env
  refine (wp_bind _ _).mpr (wp_mono (call_maintains hspec hs h₄ _ _ _ _ ?_) ?_ (fun _ _ h => h))
  · rw [henv]
    exact hvalue
  · exact fun ret i₅ h₅ => Maintains.of_quiet ((Quietly.writeCallOutput _ _).bind fun _ => .push ret) h₅

theorem opCALLCODE_maintains : Maintains evm isStatic s (opCALLCODE evm runCall) i := by
  refine popN_bind h fun i₁ _ h₁ => ?_
  refine Maintains.quiet_bind .takeGasLimit h₁ fun gasLimit i₂ _ h₂ => ?_
  refine Maintains.quiet_bind (.addCallStipend evm _ _) h₂ fun gasLimit i₃ _ h₃ => ?_
  refine Maintains.quiet_bind (.readMemory _ _) h₃ fun data i₄ _ h₄ => ?_
  exact Maintains.bind_quiet (callCode_maintains hspec hs h₄ _ _ _ _)
    fun ret => (Quietly.writeCallOutput _ _).bind fun _ => .push ret

theorem opDELEGATECALL_maintains : Maintains evm isStatic s (opDELEGATECALL evm runCall) i := by
  refine (wp_bind _ _).mpr (wp_get.mpr (popN_bind h fun i₁ _ h₁ => ?_))
  refine Maintains.quiet_bind (.readMemory _ _) h₁ fun data i₂ _ h₂ => ?_
  refine Maintains.quiet_bind .takeGasLimit h₂ fun gasLimit i₃ _ h₃ => ?_
  exact Maintains.bind_quiet (callDelegate_maintains hspec hs h₃ _ _ _ _)
    fun ret => (Quietly.writeCallOutput _ _).bind fun _ => .push ret

theorem opSTATICCALL_maintains : Maintains evm isStatic s (opSTATICCALL evm runCall) i := by
  refine popN_bind h fun i₁ _ h₁ => ?_
  refine Maintains.quiet_bind .takeGasLimit h₁ fun gasLimit i₂ _ h₂ => ?_
  refine Maintains.quiet_bind (.readMemory _ _) h₂ fun data i₃ _ h₃ => ?_
  exact Maintains.bind_quiet (callStatic_maintains hspec hs h₃ _ _ _)
    fun ret => (Quietly.writeCallOutput _ _).bind fun _ => .push ret

omit hspec in
theorem opSELFDESTRUCT_maintains (hstatic : i.env.isStatic = false) :
    Maintains evm isStatic s (opSELFDESTRUCT evm) i := by
  refine popN_bind h fun i₁ hsame h₁ => ?_
  exact selfDestruct_maintains hs h₁ (by rw [hsame.env, hstatic]) _

theorem opHandler_maintains {op : Nat} (hchecked : Checked op i)
    (hactive : op = 0x5d → evm.common.isActivatedEIP 1153 = true) :
    Maintains evm isStatic s (opHandler evm runCall op) i := by
  have hwrites : op ∈ staticallyChecked → i.env.isStatic = false := hchecked.writes
  unfold opHandler
  split
  · exact Maintains.of_quiet (.trap (by decide)) h
  · exact opSSTORE_maintains hs h (hwrites (by decide))
  · exact opTSTORE_maintains h (hactive rfl)
  iterate 5 exact opLOG_maintains h (hwrites (by decide))
  · exact opCREATE_maintains hspec hs h (hwrites (by decide))
  · exact opCALL_maintains hspec hs h (hchecked.value rfl)
  · exact opCALLCODE_maintains hspec hs h
  · exact Maintains.of_quiet ((Quietly.popN 2).bind fun _ => (Quietly.readMemory _ _).bind fun _ =>
      .finish _) h
  · exact opDELEGATECALL_maintains hspec hs h
  · exact opCREATE2_maintains hspec hs h
  · exact opSTATICCALL_maintains hspec hs h
  · exact Maintains.of_quiet ((Quietly.popN 2).bind fun _ => (Quietly.readMemory _ _).bind fun _ =>
      .revert _) h
  · exact opSELFDESTRUCT_maintains hs h (hwrites (by decide))
  · exact Maintains.of_quiet (.localOp evm _) h

end Messages

/-! ## The step and the loop -/

theorem available_tstore {c : GlobalConfig} (h : available c 0x5d = true) :
    c.isActivatedEIP 1153 = true := by
  have hbase : Opcode.base.contains 0x5d = false := by decide
  have hhardfork : ofHardfork.any (fun e => c.gteHardfork e.1 && e.2.contains 0x5d) = false := by
    simp [ofHardfork]
  rw [available, hbase, hhardfork, Bool.false_or, Bool.false_or] at h
  simpa [Opcode.ofEip] using h

theorem lookupOpInfo_valid {op : Nat} (h : (evm.lookupOpInfo op).isInvalid ≠ true) :
    available evm.common op = true ∧
      (evm.lookupOpInfo op).dynamicGas = dynamic.contains op := by
  unfold EVM.lookupOpInfo at h ⊢
  split at h
  case isTrue hvalid =>
    rw [if_pos hvalid]
    exact ⟨hvalid.1, rfl⟩
  case isFalse => simp at h

theorem Checked.of_static {op : Nat} (h : dynamic.contains op = false) : Checked op i where
  writes := by
    have hdynamic : ∀ op ∈ staticallyChecked, dynamic.contains op = true := by decide
    exact fun hop => absurd ((hdynamic op hop).symm.trans h) (by decide)
  value := by
    rintro rfl
    exact absurd h (by decide)

theorem opGas_spec (op : Nat) (opInfo : Opcode) (i : Interpreter) : (opGas evm op opInfo).wp
      (fun _ i' => SameStack i i' ∧ (opInfo.dynamicGas = true → Checked op i'))
      (fun e i' => SameFrame i i' ∧ e ≠ .evmError .CODESTORE_OUT_OF_GAS) i :=
  wp_ite
    (fun _ => wp_mono (gasHandler_spec op _ i) (fun _ _ h => ⟨h.1, fun _ => h.2⟩) (fun _ _ h => h))
    (fun hnot => ⟨.refl i, fun hdynamic => absurd hdynamic hnot⟩)

variable (hspec : MessageSpec evm runCall) (hs : s.stateManager.Ready)

include hspec hs

theorem runStep_maintains (h : FrameInv evm isStatic s i) : Maintains evm isStatic s (runStep evm runCall) i := by
  refine (wp_bind _ _).mpr (wp_get.mpr ((wp_bind _ _).mpr ?_))
  generalize i.runState.opCode = op
  have hgas := @opGas_spec evm op (evm.lookupOpInfo op) i
  refine wp_mono hgas ?_ (fun _ _ hthrown => .of_kept hthrown.2 (h.toFrameKept.same hthrown.1))
  rintro gas i₁ ⟨hsame₁, hchecked⟩
  have h₁ := h.same hsame₁.toSameFrame
  refine wp_ite (fun _ => Maintains.of_quiet (.trap (by decide)) h₁) fun hvalid => ?_
  have hop := lookupOpInfo_valid hvalid
  have hchecked₁ : Checked op i₁ := by
    cases hdynamic : Opcode.dynamic.contains op with
    | true => exact hchecked (hop.2.trans hdynamic)
    | false => exact .of_static hdynamic
  refine (wp_bind _ _).mpr (wp_mono ((Quietly.useGas gas).sameStack (.useGas gas) i₁) ?_
    (fun _ _ hthrown => .of_kept hthrown.2 (h₁.toFrameKept.same hthrown.1)))
  intro _ i₂ hsame₂
  refine (wp_bind _ _).mpr ((wp_modify _).mpr ?_)
  have hsame₃ : SameStack i₁ { i₂ with
      runState := { i₂.runState with programCounter := i₂.runState.programCounter + 1 } } :=
    hsame₂.trans ⟨⟨.refl _, rfl, rfl, rfl⟩, rfl⟩
  exact opHandler_maintains hspec hs (h₁.same hsame₃.toSameFrame) (hchecked₁.same hsame₃)
    fun heq => available_tstore (heq ▸ hop.1)

/-- A frame that ends without an error kept its invariant, and one that fails can be reverted. -/
structure FrameEnd (evm : EVM) (isStatic : Bool) (s : EvmState) (error : Option EVMErrorMessage) (i : Interpreter) :
    Prop where
  keeps : Keeps s i.evm
  grows : Grows evm s.transientStorage i.evm.transientStorage
  kept : error = none → FrameKept evm isStatic s i
  codestore : error ≠ some .CODESTORE_OUT_OF_GAS

theorem loop_spec (fuel : Nat) (h : FrameInv evm isStatic s i) :
    (loop evm runCall fuel).wp (FrameEnd evm isStatic s) (fun e _ => Foreign e) i := by
  induction fuel generalizing i with
  | zero => exact fun m hm => by cases hm
  | succ fuel ih =>
    refine (wp_bind _ _).mpr (wp_get.mpr ?_)
    have hend : FrameEnd evm isStatic s none i := ⟨h.keeps, h.grows, fun _ => h.toFrameKept, by simp⟩
    cases i.runState.code[i.runState.programCounter]? with
    | none => exact hend
    | some opCode =>
      refine (wp_bind _ _).mpr ((wp_modify _).mpr ((wp_bind _ _).mpr ((wp_attempt _).mpr ?_)))
      have hfetched : SameFrame i { i with
          runState := { i.runState with opCode := opCode.toNat } } := ⟨.refl _, rfl, rfl, rfl⟩
      have hstep := runStep_maintains hspec hs (h.same hfetched)
      refine wp_mono hstep (fun _ i' h' => ih h') ?_
      intro e i' hthrown
      cases e with
      | error message => exact foreign_error message
      | outOfFuel => exact fun m hm => by cases hm
      | evmError e =>
        have hforeign : ¬Foreign (.evmError e) := fun hf => hf e rfl
        obtain ⟨hkeeps, hgrows⟩ := hthrown.keeps hforeign
        by_cases hstop : e = .STOP
        · subst hstop
          exact (⟨hkeeps, hgrows, fun _ => hthrown.stop rfl, by simp⟩ : FrameEnd evm isStatic s none i')
        · have hfail : FrameEnd evm isStatic s (some e) i' := by
            refine ⟨hkeeps, hgrows, by simp, fun hcode => ?_⟩
            exact hthrown.codestore (congrArg Throw.evmError (Option.some.inj hcode))
          cases e <;> first | exact hfail | exact absurd rfl hstop

end Interpreter
