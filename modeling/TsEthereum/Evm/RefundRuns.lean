-- SUMMARY: A transaction as its frames, stores and refunds in any order, and that its refund counter is never exhausted.
import TsEthereum.Evm.Refunds

/-!
# Runs of a transaction

Of a transaction the state holds the frames that are open, each with its refund
counter, the storage, and the cache of original values. Programs are left open: the
frames may do what they like in any order, and end with an error or without.
-/

open Option List

open Program Coverage

/-- What the refunds of a frame depend on. -/
structure RefundFrame where
  address : Address
  gasRefund : Int

structure RefundState where
  stateManager : SimpleStateManager
  originalStorageCache : OriginalStorageCache
  frame : RefundFrame
  /-- The innermost first. -/
  callers : List RefundFrame

inductive RefundEvent where
  /-- The base fee, the stack's two items, the gas left, and whether the slot is warm. -/
  | sstore (gas key val gasLeft : Int) (warm : Bool)
  | selfdestruct
  /-- `runCall` with a message for the address, up to its checkpoint. -/
  | message (address : Address)
  /-- The frame ends without an error. -/
  | stop
  /-- The frame ends with an error. -/
  | fail

namespace RefundState

open SimpleStateManager

section Steps

variable (common : GlobalConfig)

/-- Before the code of the outermost frame. -/
def start (stateManager : SimpleStateManager) (address : Address) : RefundState where
  stateManager := stateManager.checkpoint
  originalStorageCache := .new
  frame := ⟨address, 0⟩
  callers := []

def liftRead {α : Type} (r : Except String α) : Program Throw RefundState α :=
  .ofExcept (r.mapError .error)

def liftRefund {α : Type} (p : Refunding α) : Program Throw RefundState α := fun t =>
  ((p t.frame.gasRefund).1.mapError .evmError,
    { t with frame := { t.frame with gasRefund := (p t.frame.gasRefund).2 } })

def storageStore (key value : Bytes) : Program Throw RefundState Unit := fun t =>
  ((t.stateManager.putStorage t.frame.address key value).1.mapError .error,
    { t with stateManager := (t.stateManager.putStorage t.frame.address key value).2 })

/-- SSTORE: its gas handler, `useGas`, and its handler. -/
def sstore (gas key val gasLeft : Int) (warm : Bool) : Program Throw RefundState Unit := do
  let t ← .get
  let keyBytes := Interpreter.slotKey key
  let value := Interpreter.slotValue val
  let currentStorage ← liftRead (t.stateManager.getStorage t.frame.address keyBytes)
  let (originalStorage, originalStorageCache) ← liftRead
    (t.originalStorageCache.get t.stateManager.getStorage t.frame.address keyBytes)
  .modify ({ · with originalStorageCache })
  let gas ← liftRefund (sstoreGas common gas gasLeft warm currentStorage originalStorage value)
  if gasLeft - gas < 0 then .throw (.evmError .OUT_OF_GAS)
  else storageStore keyBytes value

/-- The caller goes on with its own counter, in the state before the message. -/
def fail (t : RefundState) : Option RefundState :=
  match t.callers with
  | [] => none
  | caller :: callers =>
    some { t with stateManager := t.stateManager.revert, frame := caller, callers }

/-- The caller goes on with the counter that the message leaves. -/
def stop (t : RefundState) : Option RefundState :=
  match t.callers with
  | [] => none
  | caller :: callers =>
    some { t with
      stateManager := t.stateManager.commit
      frame := { caller with gasRefund := t.frame.gasRefund }
      callers }

/-- The next state, if the transaction goes on. -/
def step (t : RefundState) : RefundEvent → Option RefundState
  | .sstore gas key val gasLeft warm =>
    match sstore common gas key val gasLeft warm t with
    | (.ok (), t') => some t'
    | (.error (.evmError _), t') => t'.fail
    -- what is no error of the EVM ends the transaction
    | (.error _, _) => none
  | .selfdestruct =>
    some { t with frame := { t.frame with
      gasRefund := t.frame.gasRefund + common.param "selfdestructRefundGas" } }
  | .message address =>
    some { t with
      stateManager := t.stateManager.checkpoint
      frame := ⟨address, t.frame.gasRefund⟩
      callers := t.frame :: t.callers }
  | .stop => t.stop
  | .fail => t.fail

inductive Reaches (t₀ : RefundState) : RefundState → Prop
  | start : Reaches t₀ t₀
  | step {t t' : RefundState} (h : Reaches t₀ t) (event : RefundEvent)
      (hstep : t.step common event = some t') : Reaches t₀ t'

end Steps

/-! ## The invariant -/

def slotAt (slots : Slots) (slot : HexString) : Bytes := (slots.get slot).getD []

variable {common : GlobalConfig} {original : HexString → Bytes} {cache cache' : OriginalStorageCache}
  {frame : RefundFrame} {slots : Slots} {t t' : RefundState}

/-- What a slot owes in a state. -/
def debt (common : GlobalConfig) (original : HexString → Bytes) (slots : Slots) (slot : HexString) :
    Int :=
  owed (clearRefund common) (setLengthLeftStorage (original slot))
    (setLengthLeftStorage (slotAt slots slot))

/-- The counter of a frame covers what is owed in its state, which differs from the one before the
transaction at most in slots that are in the cache. -/
structure Level (common : GlobalConfig) (original : HexString → Bytes) (cache : OriginalStorageCache)
    (frame : RefundFrame) (slots : Slots) : Prop where
  covers : Covers (debt common original slots) frame.gasRefund
  untouched : ∀ address key, cache.lookup address key = none →
    slotAt slots (SimpleStateManager.storageKey address key) =
      original (SimpleStateManager.storageKey address key)

/-- The cache has original values only, and each caller is at its level. -/
structure Backed (common : GlobalConfig) (original : HexString → Bytes) (t : RefundState)
    (top : Slots) : Prop where
  levels : ∃ levels rest, t.stateManager.storageStack = top :: (levels ++ rest) ∧
    List.Forall₂ (Level common original t.originalStorageCache) t.callers levels
  cached : ∀ address key value, t.originalStorageCache.lookup address key = some value →
    value = original (SimpleStateManager.storageKey address key)

def Covered (common : GlobalConfig) (original : HexString → Bytes) (t : RefundState) : Prop :=
  ∃ top, Backed common original t top ∧ Level common original t.originalStorageCache t.frame top

theorem debt_nonneg (hparams : RefundParams common) (slot : HexString) :
    0 ≤ debt common original slots slot :=
  owed_nonneg (clearRefund_nonneg hparams) _ _

theorem Level.mono_cache (h : Level common original cache frame slots)
    (hmono : ∀ address key, cache'.lookup address key = none → cache.lookup address key = none) :
    Level common original cache' frame slots :=
  ⟨h.covers, fun address key hnone => h.untouched address key (hmono address key hnone)⟩

theorem Level.mono (h : Level common original cache frame slots) {frame' : RefundFrame}
    (hle : frame.gasRefund ≤ frame'.gasRefund) : Level common original cache frame' slots :=
  ⟨h.covers.mono hle, h.untouched⟩

variable {top : Slots}

/-- A failed frame leaves its caller covered. -/
theorem Backed.fail (h : Backed common original t top) (hfail : t.fail = some t') :
    Covered common original t' := by
  obtain ⟨⟨levels, rest, hstack, hlevels⟩, hcached⟩ := h
  cases hcallers : t.callers with
  | nil =>
    rw [RefundState.fail, hcallers] at hfail
    cases hfail
  | cons caller callers =>
    rw [hcallers] at hlevels
    cases hlevels with
    | @cons _ slots _ levels hlevel hrest =>
      rw [RefundState.fail, hcallers] at hfail
      obtain rfl := some.inj hfail
      refine ⟨slots, ⟨⟨levels, rest, ?_, hrest⟩, hcached⟩, hlevel⟩
      exact congrArg List.tail hstack

theorem Covered.stop (h : Covered common original t) (hstop : t.stop = some t') :
    Covered common original t' := by
  obtain ⟨top, ⟨⟨levels, rest, hstack, hlevels⟩, hcached⟩, hlevel⟩ := h
  cases hcallers : t.callers with
  | nil =>
    rw [RefundState.stop, hcallers] at hstop
    cases hstop
  | cons caller callers =>
    rw [hcallers] at hlevels
    cases hlevels with
    | @cons _ slots _ levels _ hrest =>
      rw [RefundState.stop, hcallers] at hstop
      obtain rfl := some.inj hstop
      refine ⟨top, ⟨⟨levels, rest, ?_, hrest⟩, hcached⟩, hlevel.mono le_rfl⟩
      exact congrArg spliceSecond hstack

theorem Covered.message (h : Covered common original t) (address : Address) :
    Covered common original { t with
      stateManager := t.stateManager.checkpoint
      frame := ⟨address, t.frame.gasRefund⟩
      callers := t.frame :: t.callers } := by
  obtain ⟨top, ⟨⟨levels, rest, hstack, hlevels⟩, hcached⟩, hlevel⟩ := h
  refine ⟨top, ⟨⟨top :: levels, rest, ?_, .cons hlevel hlevels⟩, hcached⟩, hlevel.mono le_rfl⟩
  exact congrArg pushCopy hstack

theorem covered_start (stateManager : SimpleStateManager) (address : Address) :
    Covered common (slotAt (stateManager.storageStack.head?.getD .empty))
      (start stateManager address) := by
  refine ⟨stateManager.storageStack.head?.getD .empty, ⟨⟨[], stateManager.storageStack, rfl, .nil⟩,
    nofun⟩, ⟨?_, fun _ _ _ => rfl⟩⟩
  exact .of_nothing (fun _ => owed_self _ _) le_rfl

/-! ## Slots and the cache -/

theorem length_bytesToUnprefixedHex (bytes : Bytes) :
    (bytesToUnprefixedHex bytes).length = 2 * bytes.length := by
  induction bytes with
  | nil => rfl
  | cons b bytes ih =>
    have hcons : bytesToUnprefixedHex (b :: bytes) =
        Nat.digitChar (b.toNat / 16) :: Nat.digitChar (b.toNat % 16) :: bytesToUnprefixedHex bytes :=
      rfl
    simp only [hcons, length_cons, ih, Nat.mul_add]

variable {address : Address} {key : Bytes}

/-- The key of a slot gives the keys of the cache. -/
theorem hex_of_storageKey {address' : Address} {key' : Bytes}
    (h : storageKey address key = storageKey address' key') :
    bytesToUnprefixedHex address.bytes = bytesToUnprefixedHex address'.bytes ∧
      bytesToUnprefixedHex key = bytesToUnprefixedHex key' := by
  have hlength : address.toString.length = address'.toString.length := by
    simp only [Address.toString, bytesToHex, length_cons, length_bytesToUnprefixedHex,
      address.length_eq, address'.length_eq]
  obtain ⟨haddress, hkey⟩ := append_inj h hlength
  simp only [Address.toString, bytesToHex, List.cons.injEq, true_and] at haddress hkey
  exact ⟨haddress, hkey⟩

theorem storageKey_of_hex {address' : Address} {key' : Bytes}
    (haddress : bytesToUnprefixedHex address.bytes = bytesToUnprefixedHex address'.bytes)
    (hkey : bytesToUnprefixedHex key = bytesToUnprefixedHex key') :
    storageKey address key = storageKey address' key' := by
  simp only [storageKey, Address.toString, bytesToHex, haddress, hkey]

theorem lookup_put (value : Bytes) (hnone : cache.lookup address key = none) (address' : Address)
    (key' : Bytes) :
    (cache.put address key value).lookup address' key' =
      if bytesToUnprefixedHex address'.bytes = bytesToUnprefixedHex address.bytes ∧
          bytesToUnprefixedHex key' = bytesToUnprefixedHex key then some value
      else cache.lookup address' key' := by
  have hhas : ((cache.map.get (bytesToUnprefixedHex address.bytes)).getD .empty).has
      (bytesToUnprefixedHex key) = false := by
    unfold OriginalStorageCache.lookup at hnone
    cases hmap : cache.map.get (bytesToUnprefixedHex address.bytes) with
    | none => rfl
    | some map =>
      rw [hmap] at hnone
      have hget : map.get (bytesToUnprefixedHex key) = none := hnone
      simp only [OrderedMap.has, getD_some, hget, isSome_none]
  unfold OriginalStorageCache.lookup OriginalStorageCache.put
  simp only [hhas, Bool.false_eq_true, if_false, OrderedMap.get_set]
  split
  case isTrue haddress =>
    simp only [haddress, true_and, bind_some, OrderedMap.get_set]
    split
    · rfl
    · cases cache.map.get (bytesToUnprefixedHex address.bytes) <;> rfl
  case isFalse haddress => simp only [haddress, false_and, if_false]

/-- The original value of a slot, and the cache that holds it then. -/
theorem get_original {stateManager : SimpleStateManager} {rest : List Slots}
    (hstack : stateManager.storageStack = top :: rest)
    (hcached : ∀ address key value, cache.lookup address key = some value →
      value = original (storageKey address key))
    (huntouched : cache.lookup address key = none →
      slotAt top (storageKey address key) =
        original (storageKey address key)) :
    ∃ cache', cache.get stateManager.getStorage address key =
        .ok (original (storageKey address key), cache') ∧
      (∀ address key value, cache'.lookup address key = some value →
        value = original (storageKey address key)) ∧
      (∀ address key, cache'.lookup address key = none → cache.lookup address key = none) ∧
      ∀ address' key', storageKey address' key' =
        storageKey address key → cache'.lookup address' key' ≠ none := by
  cases hlookup : cache.lookup address key with
  | some value =>
    refine ⟨cache, ?_, hcached, fun _ _ h => h, fun address' key' hslot hnone => ?_⟩
    · rw [OriginalStorageCache.get, hlookup, hcached _ _ _ hlookup]
    · obtain ⟨haddress, hkey⟩ := hex_of_storageKey hslot
      rw [OriginalStorageCache.lookup, haddress, hkey] at hnone
      cases hlookup.symm.trans hnone
  | none =>
    have hread : stateManager.getStorage address key =
        .ok (original (storageKey address key)) := by
      rw [← huntouched hlookup]
      simp only [getStorage, hstack, slotAt]
    have hput := lookup_put (original (storageKey address key)) hlookup
    refine ⟨cache.put address key (original (storageKey address key)), ?_, ?_, ?_,
      ?_⟩
    · simp only [OriginalStorageCache.get, hlookup, hread]
      rfl
    · intro address' key' value hvalue
      rw [hput] at hvalue
      split at hvalue
      case isTrue hhex =>
        obtain rfl := some.inj hvalue
        rw [storageKey_of_hex hhex.1 hhex.2]
      case isFalse => exact hcached _ _ _ hvalue
    · intro address' key' hnone
      rw [hput] at hnone
      split at hnone
      · cases hnone
      · exact hnone
    · intro address' key' hslot hnone
      rw [hput, if_pos (hex_of_storageKey hslot)] at hnone
      cases hnone

/-! ## Steps and runs -/

theorem liftRead_ok {α : Type} (a : α) : liftRead (.ok a) = pure a := rfl

theorem wp_liftRefund {α : Type} (p : Refunding α) {Q : α → RefundState → Prop}
    {E : Throw → RefundState → Prop} :
    (liftRefund p).wp Q E t ↔
      p.wp (fun a gasRefund => Q a { t with frame := { t.frame with gasRefund } })
        (fun e gasRefund => E (.evmError e) { t with frame := { t.frame with gasRefund } })
        t.frame.gasRefund := by
  unfold wp liftRefund
  rcases p t.frame.gasRefund with ⟨_ | _, _⟩ <;> rfl

/-- The value of a slot of the frame becomes another one, and the counter follows. -/
theorem Level.set (h : Level common original cache frame top) (value : Bytes) {frame' : RefundFrame}
    (hput : ∀ address' key', storageKey address' key' =
      storageKey address key → cache.lookup address' key' ≠ none)
    (hfollows : frame.gasRefund - debt common original top (storageKey address key) +
      owed (clearRefund common)
        (setLengthLeftStorage (original (storageKey address key)))
        (setLengthLeftStorage value) ≤ frame'.gasRefund) :
    Level common original cache frame' (top.set (storageKey address key) value) := by
  have hself : slotAt (top.set (storageKey address key) value)
      (storageKey address key) = value := by
    simp only [slotAt, OrderedMap.get_set, if_true, getD_some]
  have hother {slot : HexString} (hne : slot ≠ storageKey address key) :
      slotAt (top.set (storageKey address key) value) slot = slotAt top slot := by
    simp only [slotAt, OrderedMap.get_set, if_neg hne]
  refine ⟨h.covers.update (storageKey address key) (fun slot hne => ?_) ?_,
    fun address' key' hnone => ?_⟩
  · simp only [debt, hother hne]
  · have hdebt : debt common original
        (top.set (storageKey address key) value)
        (storageKey address key) = owed (clearRefund common)
          (setLengthLeftStorage (original (storageKey address key)))
          (setLengthLeftStorage value) := by
      rw [debt, hself]
    rw [hdebt]
    exact hfollows
  · rw [hother fun hslot => hput address' key' hslot hnone]
    exact h.untouched address' key' hnone

theorem storageStore_run {t : RefundState} {rest : List Slots}
    (hstack : t.stateManager.storageStack = top :: rest) (key value : Bytes) :
    storageStore key value t = (.ok (), { t with stateManager := { t.stateManager with
      storageStack :=
        top.set (storageKey t.frame.address key) value :: rest } }) := by
  simp only [storageStore, putStorage, hstack, SimpleStateManager.onTop]
  rfl

/-- An SSTORE keeps the counter covered, and where it traps it is for another reason. -/
theorem sstore_spec (hparams : RefundParams common) (h : Covered common original t)
    (gas key val gasLeft : Int) (warm : Bool) :
    (sstore common gas key val gasLeft warm).wp (fun _ t' => Covered common original t')
      (fun e t' => e ≠ .evmError .REFUND_EXHAUSTED ∧ ∃ top, Backed common original t' top) t := by
  obtain ⟨top, ⟨⟨levels, rest, hstack, hlevels⟩, hcached⟩, hlevel⟩ := h
  have huntouched := hlevel.untouched t.frame.address (Interpreter.slotKey key)
  obtain ⟨cache', hget, hcached', hmono, hput⟩ := get_original hstack hcached huntouched
  have hread : t.stateManager.getStorage t.frame.address (Interpreter.slotKey key) =
      .ok (slotAt top (storageKey t.frame.address (Interpreter.slotKey key))) := by
    simp only [getStorage, hstack, slotAt]
  simp only [sstore, wp_bind, wp_get, hread, hget, liftRead_ok, wp_pure, wp_modify, wp_liftRefund]
  have howed := hlevel.covers.le (debt_nonneg hparams)
    (storageKey t.frame.address (Interpreter.slotKey key))
  have hlevels' : List.Forall₂ (Level common original cache') t.callers levels :=
    hlevels.imp fun _ _ hcaller => hcaller.mono_cache hmono
  refine wp_mono (sstoreGas_spec hparams gas gasLeft warm howed) ?_ ?_
  · intro cost gasRefund hfollows
    refine wp_ite (fun _ => ⟨by decide, top, ⟨levels, rest, hstack, hlevels'⟩, hcached'⟩) (fun _ => ?_)
    -- the slot is written once the gas is paid
    have hstack' : ({ t with originalStorageCache := cache', frame := { t.frame with gasRefund } } :
      RefundState).stateManager.storageStack = top :: (levels ++ rest) := hstack
    refine wp_of_run (storageStore_run hstack' _ _) ?_
    exact ⟨_, ⟨⟨levels, rest, rfl, hlevels'⟩, hcached'⟩,
      (hlevel.mono_cache hmono).set _ hput hfollows⟩
  · intro e gasRefund hne
    refine ⟨fun heq => hne (Throw.evmError.inj heq), top, ⟨levels, rest, hstack, hlevels'⟩, hcached'⟩

/-- Every step keeps the counters covered. -/
theorem Covered.step (hparams : RefundParams common) (h : Covered common original t)
    (event : RefundEvent) (hstep : t.step common event = some t') : Covered common original t' := by
  cases event with
  | sstore gas key val gasLeft warm =>
    have hspec := sstore_spec hparams h gas key val gasLeft warm
    simp only [RefundState.step] at hstep
    split at hstep
    case h_1 t₁ hrun =>
      obtain rfl := some.inj hstep
      exact @wp_ok _ _ _ (fun _ t' => Covered common original t') _ _ _ _ _ hrun hspec
    case h_2 e t₁ hrun =>
      obtain ⟨-, top, hbacked⟩ := wp_error hrun hspec
      exact hbacked.fail hstep
    case h_3 => cases hstep
  | selfdestruct =>
    obtain rfl := some.inj hstep
    obtain ⟨top, hbacked, hlevel⟩ := h
    exact ⟨top, ⟨hbacked.levels, hbacked.cached⟩,
      hlevel.mono (le_add_of_nonneg_right hparams.selfdestructRefund)⟩
  | message address =>
    obtain rfl := some.inj hstep
    exact h.message address
  | stop => exact h.stop hstep
  | fail =>
    obtain ⟨top, hbacked, -⟩ := h
    exact hbacked.fail hstep

theorem Reaches.covered (hparams : RefundParams common) {t₀ : RefundState}
    (h₀ : Covered common original t₀) (h : Reaches common t₀ t) : Covered common original t := by
  induction h with
  | start => exact h₀
  | step _ event hstep ih => exact ih.step hparams event hstep

/-- In no state of a transaction an SSTORE exhausts the refund counter. -/
theorem sstore_not_exhausted (hparams : RefundParams common) (stateManager : SimpleStateManager)
    (address : Address) (h : Reaches common (start stateManager address) t)
    (gas key val gasLeft : Int) (warm : Bool) :
    (sstore common gas key val gasLeft warm t).1 ≠ .error (.evmError .REFUND_EXHAUSTED) := by
  have hcovered := h.covered hparams (covered_start stateManager address)
  have hspec := sstore_spec hparams hcovered gas key val gasLeft warm
  intro herror
  exact (wp_error (Prod.ext herror rfl) hspec).1 rfl

/-! A slot that is cleared and filled again on Istanbul. -/

def istanbulParam : String → Int
  | "netSstoreClearRefundGas" => 15000
  | "netSstoreResetClearRefundGas" => 19800
  | "netSstoreResetRefundGas" => 4800
  | "sstoreSentryEIP2200Gas" => 2300
  | "sstoreNoopEIP2200Gas" => 800
  | "sstoreDirtyEIP2200Gas" => 800
  | "sstoreInitEIP2200Gas" => 20000
  | "sstoreInitRefundEIP2200Gas" => 19200
  | "sstoreCleanEIP2200Gas" => 5000
  | "sstoreCleanRefundEIP2200Gas" => 4200
  | "sstoreClearRefundEIP2200Gas" => 15000
  | "sstoreResetGas" => 5000
  | "sstoreRefundGas" => 15000
  | "selfdestructRefundGas" => 24000
  | _ => 0

def istanbul : GlobalConfig := ⟨.Istanbul, istanbulParam, false, false, 1⟩

def oneSlot : SimpleStateManager :=
  (SimpleStateManager.new.putStorage .zero (Interpreter.slotKey 1) [5]).2

theorem istanbul_params : RefundParams istanbul := by
  constructor <;> decide +kernel

theorem sstore_not_exhausted_refilled :
    ∃ t, Reaches istanbul (start oneSlot .zero) t ∧ t.frame.gasRefund = 15000 ∧
      (sstore istanbul 0 1 7 50000 false t).1 ≠ .error (.evmError .REFUND_EXHAUSTED) := by
  have hcleared : ((start oneSlot .zero).step istanbul (.sstore 0 1 0 50000 false)).map
      (fun t => t.frame.gasRefund) = some 15000 := by decide +kernel
  obtain ⟨t, hstep, hrefund⟩ := map_eq_some_iff.mp hcleared
  have hreaches : Reaches istanbul (start oneSlot .zero) t := .step .start _ hstep
  exact ⟨t, hreaches, hrefund,
    sstore_not_exhausted istanbul_params oneSlot .zero hreaches 0 1 7 50000 false⟩

end RefundState
