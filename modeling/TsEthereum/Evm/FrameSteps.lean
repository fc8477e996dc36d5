-- SUMMARY: Every opcode keeps the invariant of its frame, and so does every run of the interpreter.
import TsEthereum.Evm.Frames

/-!
# Steps of a frame

One lemma for each operation that does more than change the run state, then the
opcodes, the step and the loop. Messages enter through `MessageSpec` only.
-/

open Program EvmState

namespace Interpreter

open SimpleStateManager

variable {evm : EVM} {isStatic : Bool} {s : EvmState} {i : Interpreter} {α β : Type}

/-- The operation keeps the invariant of the frame that started in `s`. -/
def Maintains (evm : EVM) (isStatic : Bool) (s : EvmState) (p : Run α) (i : Interpreter) : Prop :=
  p.wp (fun _ i' => FrameInv evm isStatic s i') (FrameThrown evm isStatic s) i

theorem FrameKept.ready (h : FrameKept evm isStatic s i) (hs : s.stateManager.Ready) :
    i.evm.stateManager.Ready := h.keeps.below.ready hs

theorem Maintains.of_quiet {p : Run α} (hp : Quietly p) (h : FrameInv evm isStatic s i) :
    Maintains evm isStatic s p i :=
  wp_mono (hp.inv h) (fun _ _ h => h.1) (fun _ _ h => h)

/-- Something quiet comes first. -/
theorem Maintains.quiet_bind {p : Run α} {f : α → Run β} (hp : Quietly p) (h : FrameInv evm isStatic s i)
    (hf : ∀ a i', SameFrame i i' → FrameInv evm isStatic s i' → Maintains evm isStatic s (f a) i') :
    Maintains evm isStatic s (p >>= f) i :=
  (wp_bind _ _).mpr (wp_mono (hp.inv h) (fun a i' h => hf a i' h.2 h.1) (fun _ _ h => h))

/-- Something quiet comes last. -/
theorem Maintains.bind_quiet {p : Run α} {f : α → Run β} (hp : Maintains evm isStatic s p i)
    (hf : ∀ a, Quietly (f a)) : Maintains evm isStatic s (p >>= f) i :=
  (wp_bind _ _).mpr (wp_mono hp (fun a _ h => Maintains.of_quiet (hf a) h) (fun _ _ h => h))

/-- The account of the frame, read again, is coherent. -/
theorem FrameInv.refresh (h : FrameKept evm isStatic s i) {contract : Account}
    (hcontract : contract = i.evm.stateManager.account i.env.address) :
    FrameInv evm isStatic s { i with env := { i.env with contract } } :=
  ⟨⟨h.keeps, h.grows, h.money, h.env, h.static⟩, hcontract⟩

theorem FrameKept.not_static (h : FrameKept evm isStatic s i) (hstatic : i.env.isStatic = false) :
    isStatic ≠ true := by
  rw [← h.env, hstatic]
  decide

/-- A frame that is not static may change the state in all ways that keep ether. -/
theorem FrameKept.change (h : FrameKept evm isStatic s i) (hstatic : i.env.isStatic = false)
    {evm' : EvmState} (hkeeps : Keeps i.evm evm')
    (hgrows : Grows evm i.evm.transientStorage evm'.transientStorage)
    (hmoney : Money i.result.selfdestruct i.evm evm') : FrameKept evm isStatic s { i with evm := evm' } where
  keeps := h.keeps.trans hkeeps
  grows := h.grows.trans hgrows
  money := h.money.trans hmoney id
  env := h.env
  static := fun hs => absurd hs (h.not_static hstatic)

/-! ## Slots and logs -/

theorem storageStore_maintains (hs : s.stateManager.Ready) (h : FrameInv evm isStatic s i)
    (hstatic : i.env.isStatic = false) (key value : Bytes) :
    Maintains evm isStatic s (storageStore key value) i := by
  have hready := h.ready hs
  simp only [Maintains, storageStore, liftEvm, wp_bind, wp_get, wp_onPart]
  refine wp_mono (onStateManager_spec _ i.evm) ?_ (fun e _ h => .foreign h.1)
  rintro _ evm' ⟨sm, hput, hbecomes⟩
  rw [putStorage_eq hready.slots, Prod.mk.injEq] at hput
  have hbelow : i.evm.stateManager.SameBelow sm := by
    rw [← hput.2]
    exact ⟨rfl, rfl, rfl, rfl, tail_onTop _ _, length_onTop _ _⟩
  have haccounts : ∀ k, evm'.stateManager.accountAt k = i.evm.stateManager.accountAt k := by
    rw [hbecomes.stateManager, ← hput.2]
    exact fun _ => rfl
  have hkept := h.toFrameKept.change hstatic (hbecomes.keeps hbelow) (.of_becomes hbecomes)
    (.of_accounts haccounts)
  refine wp_mono (getAccount_spec (hkept.ready hs) i.env.address) ?_ (fun e _ h => .foreign h.1)
  rintro account _ ⟨rfl, haccount⟩
  cases account with
  | none => exact .foreign (foreign_error _)
  | some account => exact .refresh hkept haccount

theorem transientStorageStore_maintains (h : FrameInv evm isStatic s i) (hstatic : i.env.isStatic = false)
    (hactive : evm.common.isActivatedEIP 1153 = true) (key value : Bytes) :
    Maintains evm isStatic s (transientStorageStore key value) i := by
  simp only [Maintains, transientStorageStore, liftEvm, wp_bind, wp_get, wp_onPart]
  have hput := TransientStorage.extends_put i.evm.transientStorage i.env.address key value
  have hgrows : Grows evm i.evm.transientStorage
      (i.evm.transientStorage.put i.env.address key value).2 :=
    ⟨fun hoff => absurd (hactive.symm.trans hoff) (by decide), hput⟩
  rcases hrun : i.evm.transientStorage.put i.env.address key value with ⟨e | a, t⟩ <;>
    rw [hrun] at hgrows <;> simp only [wp, onTransientStorage, hrun]
  · exact .foreign (foreign_error _)
  · refine ⟨h.toFrameKept.change hstatic ⟨.refl _, rfl, hgrows.recorded.indices, rfl⟩ hgrows
      (.of_accounts fun _ => rfl), h.coherent⟩

theorem log_maintains (h : FrameInv evm isStatic s i) (hstatic : i.env.isStatic = false) (data : Bytes)
    (numberOfTopics : Nat) (topics : List Bytes) :
    Maintains evm isStatic s (log data numberOfTopics topics) i := by
  unfold log
  refine wp_ite (fun _ => Maintains.of_quiet (.trap (by decide)) h) fun _ => ?_
  refine wp_ite (fun _ => Maintains.of_quiet (.trap (by decide)) h) fun _ => ?_
  exact ⟨⟨h.keeps, h.grows, h.money, h.env, fun hs => absurd hs (h.not_static hstatic)⟩,
    h.coherent⟩

/-! ## Messages -/

/-- The state after a message, for a frame that has not read its account again. -/
def received (i : Interpreter) (evm' : EvmState) (selfdestruct : OrderedSet HexString) :
    Interpreter :=
  { i with evm := evm', result := { i.result with selfdestruct } }

theorem keys_set_ne_nil {κ ν : Type} [DecidableEq κ] (m : OrderedMap κ ν) (k : κ) (v : ν) :
    (m.set k v).keys ≠ [] :=
  List.ne_nil_of_mem (OrderedMap.has_iff.mp (by simp : (m.set k v).has k = true))

/-- A set that is empty once others were added is empty, and so are they. -/
theorem keys_foldl_add {ks : List HexString} {set : OrderedSet HexString}
    (h : (ks.foldl OrderedMap.add set).keys = []) : set.keys = [] ∧ ks = [] := by
  induction ks generalizing set with
  | nil => exact ⟨h, rfl⟩
  | cons k ks ih => exact absurd (ih h).1 (keys_set_ne_nil set k ())

section Messages

variable {runCall : RunMessage} {msg msg' : Message} {res : EVMResult} {evm' : EvmState}

/-- The sets of this frame with those of a message. -/
def merged (i : Interpreter) (msg : Message) : OrderedSet HexString :=
  (msg.selfdestruct.getD .empty).keys.foldl OrderedMap.add i.result.selfdestruct

/-- After a message that took effect the frame has what it had, with what the message destructed. -/
theorem FrameKept.received (h : FrameKept evm isStatic s i) (ho : Outcome evm msg i.evm res msg' evm')
    (hstatic : i.env.isStatic = true → msg.isStatic = true ∧ msg.to ≠ none ∧ msg.Harmless) :
    FrameKept evm isStatic s (i.received evm' (merged i msg')) where
  keeps := h.keeps.trans ho.keeps
  grows := h.grows.trans ho.grows
  money := by
    have hmoney : Money (merged i msg') i.evm evm' :=
      ho.money.mono fun hnone => (keys_foldl_add hnone).2
    exact h.money.trans hmoney fun hnone => (keys_foldl_add hnone).1
  env := h.env
  static := by
    intro hs
    obtain ⟨hmsg, hto, hharmless⟩ := hstatic (h.env.trans hs)
    exact ⟨(h.static hs).1.trans (ho.static hmsg hto hharmless).1, (h.static hs).2⟩

/-- After a message that failed the frame is where it was. -/
theorem FrameInv.restored (h : FrameInv evm isStatic s i) (ho : Outcome evm msg i.evm res msg' evm')
    (hr : Restored i.evm evm') : FrameInv evm isStatic s { i with evm := evm' } where
  keeps := h.keeps.trans ho.keeps
  grows := h.grows.trans ho.grows
  money := h.money.trans (.of_accounts fun k => by rw [hr.stateManager]) id
  env := h.env
  static := fun hs => ⟨(h.static hs).1.trans hr.unchanged, (h.static hs).2⟩
  coherent := by
    change i.env.contract = evm'.stateManager.account i.env.address
    rw [hr.stateManager]
    exact h.coherent

/-- Logs are added only where the message may log. -/
theorem addLogs_kept (hstatic : i.env.isStatic = true → res.execResult.logs.getD [] = []) :
    (addLogs res).wp
      (fun _ i' => i'.evm = i.evm ∧ i'.env = i.env ∧
        i'.result.selfdestruct = i.result.selfdestruct ∧
        (i.env.isStatic = true → i'.result.logs = i.result.logs))
      (fun _ _ => False) i := by
  simp only [addLogs, onResult, wp_modify]
  exact ⟨trivial, trivial, trivial, fun hs => by rw [hstatic hs, List.append_nil]⟩

theorem FrameKept.congr {i' : Interpreter} (h : FrameKept evm isStatic s i) (hevm : i'.evm = i.evm)
    (henv : i'.env = i.env) (hset : i'.result.selfdestruct = i.result.selfdestruct)
    (hlogs : i.env.isStatic = true → i'.result.logs = i.result.logs) : FrameKept evm isStatic s i' where
  keeps := hevm ▸ h.keeps
  grows := hevm ▸ h.grows
  money := by
    rw [hset, hevm]
    exact h.money
  env := by rw [henv, h.env]
  static := by
    intro hs
    rw [hevm, hlogs (h.env.trans hs)]
    exact h.static hs

theorem FrameInv.congr {i' : Interpreter} (h : FrameInv evm isStatic s i) (hevm : i'.evm = i.evm)
    (henv : i'.env = i.env) (hset : i'.result.selfdestruct = i.result.selfdestruct)
    (hlogs : i.env.isStatic = true → i'.result.logs = i.result.logs) : FrameInv evm isStatic s i' :=
  ⟨h.toFrameKept.congr hevm henv hset hlogs, by rw [hevm, henv]; exact h.coherent⟩

theorem useGas_spec (amount : Int) (i : Interpreter) :
    (useGas amount).wp (fun _ i' => SameFrame i i')
      (fun e i' => e = .evmError .OUT_OF_GAS ∧ SameFrame i i') i := by
  simp only [useGas, onRunState, wp_bind, wp_modify, wp_get]
  refine wp_when (fun _ => ?_) (fun _ => ⟨.refl _, rfl, rfl, rfl⟩)
  exact ⟨rfl, .refl _, rfl, rfl, rfl⟩

/-- The sets of a message are taken over; nothing else changes. -/
theorem mergeSets_spec (msg : Message) (i : Interpreter) :
    (mergeSets evm msg).wp
      (fun _ i' => i'.evm = i.evm ∧ i'.env = i.env ∧ i'.result.logs = i.result.logs ∧
        i'.result.selfdestruct = merged i msg)
      (fun e _ => Foreign e) i := by
  simp only [mergeSets, onResult, wp_bind, wp_modify]
  refine wp_when (fun _ => ?_) (fun _ => ⟨rfl, rfl, rfl, rfl⟩)
  simp only [wp_bind, wp_get]
  cases i.result.createdAddresses with
  | some set => exact ⟨rfl, rfl, rfl, rfl⟩
  | none => exact wp_ite (fun _ => ⟨rfl, rfl, rfl, rfl⟩) (fun _ => foreign_error _)

theorem refresh_maintains (hs : s.stateManager.Ready) (h : FrameKept evm isStatic s i) (res : EVMResult) :
    Maintains evm isStatic s (refresh res) i := by
  simp only [Maintains, refresh, liftEvm, wp_bind, wp_get, wp_onPart]
  refine wp_mono (getAccount_spec (h.ready hs) i.env.address) ?_ (fun e _ h => .foreign h.1)
  rintro account _ ⟨rfl, haccount⟩
  cases account with
  | none => exact .foreign (foreign_error _)
  | some account =>
    exact (FrameInv.refresh h haccount).same ⟨.refl _, rfl, rfl, rfl⟩

/-- The end of a message that took effect: its sets are taken over, the account is read again. -/
theorem merge_maintains (hs : s.stateManager.Ready) (msg : Message) (res : EVMResult)
    (h : FrameKept evm isStatic s (i.received i.evm (merged i msg))) :
    Maintains evm isStatic s (do mergeSets evm msg; refresh res) i := by
  simp only [Maintains, wp_bind]
  refine wp_mono (mergeSets_spec msg i) ?_ (fun e _ h => .foreign h)
  rintro _ i' ⟨hevm, henv, hlogs, hset⟩
  exact refresh_maintains hs (h.congr hevm henv hset fun _ => hlogs) res

/-- Where gas runs out after a message, the frame fails and is reverted. -/
theorem useGas_received (amount : Int) {set : OrderedSet HexString}
    (h : FrameKept evm isStatic s (i.received i.evm set)) :
    (useGas amount).wp (fun _ i' => SameFrame i i') (FrameThrown evm isStatic s) i := by
  refine wp_mono (useGas_spec amount i) (fun _ _ h => h) ?_
  rintro e i' ⟨rfl, hsame⟩
  refine ⟨by simp, fun _ => ?_, fun hstop => by cases hstop⟩
  exact ⟨h.keeps.trans hsame.evm.keeps, h.grows.trans (.of_quiet hsame.evm)⟩

/-- What becomes of a message: it failed and left no trace, or it took effect. -/
theorem received_cases (h : FrameInv evm isStatic s i) (ho : Outcome evm msg i.evm res msg' evm')
    (hstatic : i.env.isStatic = true → msg.isStatic = true ∧ msg.to ≠ none ∧ msg.Harmless) :
    (∃ e, res.execResult.exceptionError = some e ∧ e ≠ .CODESTORE_OUT_OF_GAS ∧
        FrameInv evm isStatic s { i with evm := evm' }) ∨
      ((res.execResult.exceptionError = none ∨
          res.execResult.exceptionError = some .CODESTORE_OUT_OF_GAS) ∧
        FrameKept evm isStatic s (i.received evm' (merged i msg'))) := by
  cases he : res.execResult.exceptionError with
  | none => exact .inr ⟨.inl rfl, h.toFrameKept.received ho hstatic⟩
  | some e =>
    by_cases hcode : e = .CODESTORE_OUT_OF_GAS
    · exact .inr ⟨.inr (by rw [hcode]), h.toFrameKept.received ho hstatic⟩
    · exact .inl ⟨e, rfl, hcode, h.restored ho (ho.restored e he hcode)⟩

theorem setReturnBytes_quiet (returnBytes : Bytes) : Quietly (setReturnBytes returnBytes) :=
  .onRunState _

/-- The end of `_baseCall`. -/
theorem baseCall_tail (hs : s.stateManager.Ready) (h : FrameInv evm isStatic s i)
    (ho : Outcome evm msg i.evm res msg' evm') (hto : msg.to ≠ none)
    (hstatic : i.env.isStatic = true → msg.isStatic = true ∧ msg.to ≠ none ∧ msg.Harmless) :
    Maintains evm isStatic s (do
      addLogs res
      useGas res.execResult.executionGasUsed
      .when (res.execResult.exceptionError = none ∨ res.execResult.exceptionError = some .REVERT)
        (setReturnBytes res.execResult.returnValue)
      .when (res.execResult.exceptionError = none) do
        mergeSets evm msg'
        refresh res
      pure (getReturnCode res)) { i with evm := evm' } := by
  have hlogs : i.env.isStatic = true → res.execResult.logs.getD [] = [] := fun hi =>
    let ⟨h1, h2, h3⟩ := hstatic hi
    (ho.static h1 h2 h3).2
  refine (wp_bind _ _).mpr (wp_mono (addLogs_kept hlogs) ?_ (fun _ _ h => h.elim))
  rintro _ i₁ ⟨hevm, henv, hset, hlog⟩
  rcases received_cases h ho hstatic with ⟨e, he, -, hinv⟩ | ⟨hnone, hkept⟩
  · -- the message failed: nothing is merged
    refine Maintains.quiet_bind (.useGas _) (hinv.congr hevm henv hset hlog) fun _ i₂ _ h₂ => ?_
    refine Maintains.quiet_bind (.when (setReturnBytes_quiet _)) h₂ fun _ i₃ _ h₃ => ?_
    have hsome : ¬res.execResult.exceptionError = none := by simp [he]
    exact (wp_bind _ _).mpr (wp_when (fun hnone => absurd hnone hsome) (fun _ => h₃))
  · have hnone : res.execResult.exceptionError = none :=
      hnone.resolve_right fun hcode => hto (ho.codestore hcode)
    have hmerged : merged i₁ msg' = merged i msg' := by simp only [merged, hset]
    have hkept₁ : FrameKept evm isStatic s (i₁.received i₁.evm (merged i₁ msg')) :=
      hkept.congr hevm henv hmerged hlog
    refine (wp_bind _ _).mpr (wp_mono (useGas_received _ hkept₁) ?_ (fun _ _ h => h))
    intro _ i₂ hsame₂
    refine (wp_bind _ _).mpr (wp_when (fun _ => ?_) (fun hnot => absurd (.inl hnone) hnot))
    have hkept₂ : FrameKept evm isStatic s (i₂.received i₂.evm (merged i₂ msg')) :=
      hkept₁.same ⟨hsame₂.evm, hsame₂.env, hsame₂.logs, by simp only [received, merged, hsame₂.selfdestruct]⟩
    refine (wp_modify _).mpr ((wp_bind _ _).mpr (wp_when (fun _ => ?_) (fun hnot => absurd hnone hnot)))
    exact merge_maintains hs msg' res (hkept₂.same ⟨.refl _, rfl, rfl, rfl⟩)

/-- The message as the frame sends it, with its sets. -/
theorem sendable_withSets (hready : i.evm.stateManager.Ready) (hdepth : msg.depth ≠ 0)
    (hvalue : 0 ≤ msg.value)
    (hfunds : msg.to = none → msg.value ≤ (i.evm.stateManager.account msg.caller).balance) :
    Sendable (withSets evm i msg) i.evm :=
  ⟨hdepth, hvalue, hready, rfl, hfunds⟩

theorem baseCall_maintains (hspec : MessageSpec evm runCall) (hs : s.stateManager.Ready)
    (h : FrameInv evm isStatic s i) (hdepth : msg.depth ≠ 0) (hvalue : 0 ≤ msg.value) (hto : msg.to ≠ none)
    (hstatic : i.env.isStatic = true → msg.isStatic = true ∧ msg.Harmless) :
    Maintains evm isStatic s (baseCall evm runCall msg) i := by
  refine Maintains.quiet_bind (setReturnBytes_quiet _) h fun _ i₁ hsame h₁ => ?_
  refine (wp_bind _ _).mpr (wp_get.mpr ?_)
  refine wp_ite (fun _ => Maintains.of_quiet (.pure 0) h₁) fun _ => ?_
  have hsend : Sendable (withSets evm i₁ msg) i₁.evm :=
    sendable_withSets (h₁.ready hs) hdepth hvalue fun hnone => absurd hnone hto
  simp only [liftEvm, wp_bind, wp_onPart]
  refine wp_mono (hspec _ _ hsend) ?_ (fun e _ he => .foreign he)
  rintro ⟨res, msg'⟩ evm' ho
  have hstatic₁ : i₁.env.isStatic = true →
      (withSets evm i₁ msg).isStatic = true ∧ (withSets evm i₁ msg).to ≠ none ∧
        (withSets evm i₁ msg).Harmless := by
    intro hi
    rw [hsame.env] at hi
    exact ⟨(hstatic hi).1, hto, (hstatic hi).2⟩
  have htail := baseCall_tail hs h₁ ho hto hstatic₁
  simpa only [Maintains, wp_bind] using htail

/-- The end of `_baseCreate`. -/
theorem createMessage_tail (hs : s.stateManager.Ready) (h : FrameInv evm isStatic s i)
    (ho : Outcome evm msg i.evm res msg' evm') (hstatic : i.env.isStatic = false) :
    Maintains evm isStatic s (do
      addLogs res
      useGas res.execResult.executionGasUsed
      .when (res.execResult.exceptionError = some .REVERT)
        (setReturnBytes res.execResult.returnValue)
      if res.execResult.exceptionError = none ∨
          res.execResult.exceptionError = some .CODESTORE_OUT_OF_GAS then
        mergeSets evm msg'
        refresh res
        match res.createdAddress with
        | some address => pure (bytesToBigInt address.bytes)
        | none => pure (getReturnCode res)
      else
        pure (getReturnCode res)) { i with evm := evm' } := by
  have hnot : i.env.isStatic ≠ true := by simp [hstatic]
  refine (wp_bind _ _).mpr (wp_mono (addLogs_kept fun hi => absurd hi hnot) ?_ (fun _ _ h => h.elim))
  rintro _ i₁ ⟨hevm, henv, hset, hlog⟩
  rcases received_cases h ho (fun hi => absurd hi hnot) with ⟨e, he, hcode, hinv⟩ | ⟨hok, hkept⟩
  · refine Maintains.quiet_bind (.useGas _) (hinv.congr hevm henv hset hlog) fun _ i₂ _ h₂ => ?_
    refine Maintains.quiet_bind (.when (setReturnBytes_quiet _)) h₂ fun _ i₃ _ h₃ => ?_
    refine wp_ite (fun hok => ?_) (fun _ => h₃)
    simp [he, hcode] at hok
  · have hmerged : merged i₁ msg' = merged i msg' := by simp only [merged, hset]
    have hkept₁ : FrameKept evm isStatic s (i₁.received i₁.evm (merged i₁ msg')) :=
      hkept.congr hevm henv hmerged hlog
    refine (wp_bind _ _).mpr (wp_mono (useGas_received _ hkept₁) ?_ (fun _ _ h => h))
    intro _ i₂ hsame₂
    have hrevert : res.execResult.exceptionError ≠ some .REVERT := by
      rcases hok with hok | hok <;> simp [hok]
    refine (wp_bind _ _).mpr (wp_when (fun heq => absurd heq hrevert) (fun _ => ?_))
    refine wp_ite (fun _ => ?_) (fun hnot => absurd hok hnot)
    have hkept₂ : FrameKept evm isStatic s (i₂.received i₂.evm (merged i₂ msg')) :=
      hkept₁.same ⟨hsame₂.evm, hsame₂.env, hsame₂.logs, by simp only [received, merged, hsame₂.selfdestruct]⟩
    have hmerge := Maintains.bind_quiet (merge_maintains hs msg' res hkept₂) (f := fun _ =>
      match res.createdAddress with
      | some address => pure (bytesToBigInt address.bytes)
      | none => pure (getReturnCode res)) (fun _ => by cases res.createdAddress <;> exact .pure _)
    simpa only [Maintains, wp_bind] using hmerge

/-- A message has a value that is not negative. -/
theorem newMessage_bind {f : Message → Run α}
    (hf : 0 ≤ msg.value → Maintains evm isStatic s (f msg) i) :
    Maintains evm isStatic s (newMessage msg >>= f) i := by
  refine (wp_bind _ _).mpr (wp_ite (fun _ => ?_) (fun hvalue => hf (not_lt.mp hvalue)))
  exact .foreign (foreign_error _)

theorem createMessage_maintains (hspec : MessageSpec evm runCall) (hs : s.stateManager.Ready)
    (h : FrameInv evm isStatic s i) (hstatic : i.env.isStatic = false) (gasLimit value : Int)
    (hfunds : value ≤ i.env.contract.balance) (codeToRun : Bytes) (salt : Option Bytes) :
    Maintains evm isStatic s (createMessage evm runCall gasLimit value codeToRun salt) i := by
  refine (wp_bind _ _).mpr (wp_get.mpr ?_)
  refine newMessage_bind fun hvalue => ?_
  simp only [Maintains, liftEvm, wp_bind, wp_onPart]
  have hsend : ∀ msg : Message, msg.depth = i.env.depth + 1 → msg.value = value →
      msg.caller = i.env.address → Sendable (withSets evm i msg) i.evm := by
    intro msg hdepth hmsg hcaller
    refine sendable_withSets (h.ready hs) (by simp [hdepth]) (hmsg ▸ hvalue) fun _ => ?_
    rw [hmsg, hcaller, ← h.coherent]
    exact hfunds
  refine wp_mono (hspec _ _ (hsend _ rfl rfl rfl)) ?_ (fun e _ he => .foreign he)
  rintro ⟨res, msg'⟩ evm' ho
  have htail := createMessage_tail hs h ho hstatic
  simp only [Maintains, wp_bind] at htail
  exact htail

/-- The nonce is bumped, in the state and in the copy of the account. -/
theorem bumpNonce_spec (hs : s.stateManager.Ready) (h : FrameInv evm isStatic s i)
    (hstatic : i.env.isStatic = false) (contract : Account)
    (hbalance : contract.balance = i.env.contract.balance) :
    (do setContract contract; liftEvm (EvmState.putAccount i.env.address contract) : Run Unit).wp
      (fun _ i' => FrameInv evm isStatic s i' ∧ i'.env = { i.env with contract })
      (FrameThrown evm isStatic s) i := by
  have hready := h.ready hs
  simp only [setContract, liftEvm, wp_bind, wp_modify, wp_onPart]
  refine wp_mono (putAccount_spec hready i.env.address contract) ?_ (fun e _ h => .foreign h.1)
  intro _ evm' hbecomes
  have htotal : evm'.stateManager.totalBalance = i.evm.stateManager.totalBalance := by
    rw [hbecomes.stateManager, totalBalance_setAccount hready.accounts]
    simp [hbalance, h.coherent]
  have hmoney : Money i.result.selfdestruct i.evm evm' := by
    refine fun hsolvent => ⟨?_, htotal.le, fun _ => htotal⟩
    rw [hbecomes.stateManager]
    refine solvent_setAccount hready.accounts hsolvent ?_
    rw [Option.getD_some, hbalance, h.coherent]
    exact hsolvent _
  have hkept := h.toFrameKept.change hstatic
    (hbecomes.keeps (sameBelow_setAccount _ _ _)) (.of_becomes hbecomes) hmoney
  refine ⟨FrameInv.refresh hkept ?_, trivial⟩
  change contract = evm'.stateManager.account i.env.address
  rw [hbecomes.stateManager, account_setAccount hready.accounts]
  rfl

theorem create_maintains (hspec : MessageSpec evm runCall) (hs : s.stateManager.Ready)
    (h : FrameInv evm isStatic s i) (hstatic : i.env.isStatic = false) (gasLimit value : Int)
    (codeToRun : Bytes) (salt : Option Bytes) :
    Maintains evm isStatic s (create evm runCall gasLimit value codeToRun salt) i := by
  refine Maintains.quiet_bind (setReturnBytes_quiet _) h fun _ i₁ hsame h₁ => ?_
  refine (wp_bind _ _).mpr (wp_get.mpr ?_)
  have hstatic₁ : i₁.env.isStatic = false := by rw [hsame.env, hstatic]
  refine wp_ite (fun _ => Maintains.of_quiet (.pure 0) h₁) fun hafford => ?_
  refine wp_ite (fun _ => Maintains.of_quiet (.pure 0) h₁) fun _ => ?_
  have hbump := bumpNonce_spec hs h₁ hstatic₁
    { i₁.env.contract with nonce := i₁.env.contract.nonce + 1 } rfl
  simp only [wp_bind] at hbump ⊢
  refine wp_mono hbump (fun _ i₂ hi₂ => wp_mono hi₂ ?_ (fun _ _ h => h)) (fun _ _ h => h)
  rintro _ i₃ ⟨h₃, henv⟩
  refine wp_ite (fun _ => Maintains.of_quiet (.pure 0) h₃) fun _ => ?_
  refine createMessage_maintains hspec hs h₃ (by rw [henv]; exact hstatic₁) _ _ ?_ _ _
  rw [henv]
  simp only [not_or, not_lt] at hafford
  exact hafford.2

end Messages

/-! ## Self-destructs -/

theorem FrameThrown.stopped (h : FrameKept evm isStatic s i) : FrameThrown evm isStatic s (.evmError .STOP) i :=
  .of_kept (by decide) h

/-- What is sent to another account is always taken from this one. -/
theorem doModify_spec (i i' : Interpreter) (toSelf : Bool) :
    (doModify evm i toSelf).wp (fun modify i'' => i'' = i' ∧ (toSelf = false → modify = true))
      (fun e _ => Foreign e) i' := by
  unfold doModify
  refine wp_ite (fun _ => ?_) (fun _ => ⟨rfl, fun _ => rfl⟩)
  cases i.result.createdAddresses with
  | none => exact foreign_error _
  | some created => exact ⟨rfl, fun htoSelf => by simp [htoSelf]⟩

/-- The balance of the account is set to 0. -/
theorem emptyAccount_spec {t : EvmState} (ht : t.stateManager.Ready) (address : Address) :
    (onStateManager (·.modifyAccountFields address ⟨none, some 0, none, none⟩)).wp
      (fun _ t' => Keeps t t' ∧ t'.transientStorage = t.transientStorage ∧
        (t.stateManager.Solvent → t'.stateManager.Solvent) ∧
        t'.stateManager.totalBalance =
          t.stateManager.totalBalance - (t.stateManager.account address).balance)
      (fun e _ => Foreign e) t := by
  refine wp_mono (onStateManager_spec _ t) ?_ (fun _ _ h => h.1)
  rintro _ t' ⟨sm, hrun, hbecomes⟩
  rw [modifyAccountFields_eq ht.accounts, Prod.mk.injEq] at hrun
  have hsm := hbecomes.stateManager.trans hrun.2.symm
  refine ⟨hbecomes.keeps ?_, hbecomes.transientStorage, fun hsolvent => ?_, ?_⟩
  · rw [← hrun.2]
    exact sameBelow_setAccount _ _ _
  · rw [hsm]
    exact solvent_setAccount ht.accounts hsolvent (by simp)
  · rw [hsm, totalBalance_setAccount ht.accounts]
    simp

/-- An account that destructs itself and sends its balance to another account. -/
theorem sendBalance_spec {t : EvmState} (ht : t.stateManager.Ready) {address toAddress : Address}
    (hne : toAddress.bytes ≠ address.bytes) (contract : Account)
    (hcontract : contract = t.stateManager.account address) :
    (do
      let toAccount ← EvmState.getAccount toAddress
      let toAccount := toAccount.getD .new
      EvmState.putAccount toAddress
        { toAccount with balance := toAccount.balance + contract.balance } : Call Unit).wp
      (fun _ t' => Keeps t t' ∧ t'.transientStorage = t.transientStorage ∧
        (t.stateManager.Solvent → t'.stateManager.Solvent) ∧
        t'.stateManager.account address = contract ∧
        t'.stateManager.totalBalance = t.stateManager.totalBalance + contract.balance)
      (fun e _ => Foreign e) t := by
  simp only [wp_bind]
  refine wp_mono (getAccount_spec ht toAddress) ?_ (fun _ _ h => h.1)
  rintro account _ ⟨rfl, haccount⟩
  refine wp_mono (putAccount_spec ht toAddress _) ?_ (fun _ _ h => h.1)
  intro _ t' hbecomes
  refine ⟨hbecomes.keeps (SimpleStateManager.sameBelow_setAccount _ _ _),
    hbecomes.transientStorage, fun hsolvent => ?_, ?_, ?_⟩
  · rw [hbecomes.stateManager]
    refine SimpleStateManager.solvent_setAccount ht.accounts hsolvent ?_
    rw [Option.getD_some, haccount, hcontract]
    exact add_nonneg (hsolvent _) (hsolvent _)
  · have hstring : address.toString ≠ toAddress.toString := fun heq =>
      hne (Address.toString_inj.mp heq.symm)
    rw [hbecomes.stateManager, SimpleStateManager.account,
      SimpleStateManager.accountAt_setAccount ht.accounts, if_neg hstring, hcontract]
    rfl
  · rw [hbecomes.stateManager, SimpleStateManager.totalBalance_setAccount ht.accounts]
    simp only [Option.getD_some, haccount]
    ring

/-- The part of `_selfDestruct` that changes balances. -/
theorem moveBalance_maintains (hs : s.stateManager.Ready) (h : FrameInv evm isStatic s i)
    (hstatic : i.env.isStatic = false) (hset : i.result.selfdestruct.keys ≠ [])
    (i₀ : Interpreter) (toAddress : Address) :
    Maintains evm isStatic s (do
      .when (decide (toAddress.bytes = i.env.address.bytes) = false) do
        let toAccount ← liftEvm (EvmState.getAccount toAddress)
        let toAccount := toAccount.getD .new
        liftEvm (EvmState.putAccount toAddress
          { toAccount with balance := toAccount.balance + i.env.contract.balance })
      let modify ← doModify evm i₀ (toAddress.bytes = i.env.address.bytes)
      .when (modify = true) (liftEvm (EvmState.onStateManager
        (·.modifyAccountFields i.env.address ⟨none, some 0, none, none⟩)))
      trap .STOP : Run Unit) i := by
  have hready := h.ready hs
  have hchange : ∀ evm' : EvmState, Keeps i.evm evm' →
      evm'.transientStorage = i.evm.transientStorage →
      (i.evm.stateManager.Solvent → evm'.stateManager.Solvent ∧
        evm'.stateManager.totalBalance ≤ i.evm.stateManager.totalBalance) →
      FrameThrown evm isStatic s (.evmError .STOP) { i with evm := evm' } := by
    intro evm' hkeeps htransient hmoney
    refine .stopped (h.toFrameKept.change hstatic hkeeps (htransient ▸ .refl _) fun hsolvent => ?_)
    exact ⟨(hmoney hsolvent).1, (hmoney hsolvent).2, fun hnone => absurd hnone hset⟩
  simp only [Maintains, wp_bind]
  by_cases hself : toAddress.bytes = i.env.address.bytes
  · -- the balance stays, or is lost
    refine wp_when (fun hnot => by simp [hself] at hnot) (fun _ => ?_)
    refine wp_mono (doModify_spec i₀ i _) ?_ (fun _ _ he => .foreign he)
    intro modify i' hmodify
    rw [hmodify.1]
    refine wp_when (fun _ => ?_) (fun _ => .stopped h.toFrameKept)
    simp only [liftEvm, wp_onPart]
    refine wp_mono (emptyAccount_spec hready _) ?_ (fun _ _ he => .foreign he)
    rintro _ evm' ⟨hkeeps, htransient, hsolvent, htotal⟩
    refine hchange evm' hkeeps htransient fun hsolv => ⟨hsolvent hsolv, ?_⟩
    have hbalance := hsolv i.env.address.toString
    rw [htotal]
    exact Int.sub_le_self _ hbalance
  · refine wp_when (fun _ => ?_) (fun hnot => by simp [hself] at hnot)
    have hsend := sendBalance_spec hready hself i.env.contract h.coherent
    simp only [wp_bind] at hsend
    simp only [liftEvm, wp_bind, wp_onPart]
    refine wp_mono hsend (fun account t ht => wp_mono ht ?_ (fun _ _ he => .foreign he))
      (fun _ _ he => .foreign he)
    rintro _ t' ⟨hkeeps, htransient, hsolvent, haccount, htotal⟩
    refine wp_mono (doModify_spec i₀ _ _) ?_ (fun _ _ he => .foreign he)
    rintro modify _ ⟨rfl, hmodify⟩
    refine wp_when (fun _ => ?_) (fun hnot => absurd (hmodify (by simp [hself])) hnot)
    refine (wp_onPart _ _ _).mpr (wp_mono (emptyAccount_spec (hkeeps.below.ready hready) _) ?_
      (fun _ _ he => .foreign he))
    rintro _ evm' ⟨hkeeps', htransient', hsolvent', htotal'⟩
    refine hchange evm' (hkeeps.trans hkeeps') (htransient'.trans htransient) fun hsolv =>
      ⟨hsolvent' (hsolvent hsolv), ?_⟩
    change evm'.stateManager.totalBalance = t'.stateManager.totalBalance -
      (t'.stateManager.account i.env.address).balance at htotal'
    rw [htotal', haccount, htotal]
    linarith

theorem FrameInv.destruct (h : FrameInv evm isStatic s i) (address : HexString) :
    FrameInv evm isStatic s { i with
      result := { i.result with selfdestruct := i.result.selfdestruct.add address } } where
  keeps := h.keeps
  grows := h.grows
  money := h.money.mono fun hnone => absurd hnone (keys_set_ne_nil _ _ _)
  env := h.env
  static := h.static
  coherent := h.coherent

theorem selfDestruct_maintains (hs : s.stateManager.Ready) (h : FrameInv evm isStatic s i)
    (hstatic : i.env.isStatic = false) (toAddress : Address) :
    Maintains evm isStatic s (selfDestruct evm toAddress) i := by
  refine (wp_bind _ _).mpr (wp_get.mpr ?_)
  refine Maintains.quiet_bind (.when (.onRunState _)) h fun _ i₁ hsame h₁ => ?_
  refine (wp_bind _ _).mpr ((wp_modify _).mpr ?_)
  have hmove := moveBalance_maintains hs (h₁.destruct (bytesToHex i₁.env.address.bytes))
    (by rw [← hstatic, ← hsame.env]) (keys_set_ne_nil _ _ _) i toAddress
  rw [← hsame.env]
  exact hmove

end Interpreter
