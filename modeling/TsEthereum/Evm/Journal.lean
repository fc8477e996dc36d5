-- SUMMARY: The journal of warm and touched addresses that the interpreter keeps next to the state.
import TsEthereum.Base.UndoLog
import TsEthereum.Utils.Hex

/-!
# Journal

`journal.ts` of the EVM package: which addresses and storage slots are warm,
which addresses have been touched, and the diffs by which a revert takes this
back. The state manager below it is a parameter; where it throws, the journal
keeps what it did before.
-/

abbrev AddressString := HexString
abbrev SlotString := HexString
abbrev WarmSlots := OrderedSet SlotString
abbrev JournalType := OrderedMap AddressString WarmSlots

def RIPEMD160_ADDRESS_STRING : AddressString := List.replicate 39 '0' ++ ['3']

/-- What the journal calls of the state manager. -/
structure StateManagerInterface (σ Account : Type) where
  putAccount : σ → Address → Option Account → Except String Unit × σ
  deleteAccount : σ → Address → Except String Unit × σ
  checkpoint : σ → Except String Unit × σ
  commit : σ → Except String Unit × σ
  revert : σ → Except String Unit × σ
  getAppliedKey : Option (Bytes → Bytes)

/-- What a revert removes: warm addresses, warm slots of an address, touched addresses. -/
structure JournalDiffItem where
  addresses : OrderedSet AddressString
  slots : OrderedMap AddressString (OrderedSet SlotString)
  touched : OrderedSet AddressString

def JournalDiffItem.empty : JournalDiffItem := ⟨.empty, .empty, .empty⟩

structure Journal (σ : Type) where
  stateManager : σ
  journal : JournalType
  alwaysWarmJournal : OrderedMap AddressString (OrderedSet SlotString)
  touched : OrderedSet AddressString
  /-- The last item first. -/
  journalDiff : List (Int × JournalDiffItem)
  journalHeight : Int
  accessList : Option (OrderedMap AddressString (OrderedSet SlotString))
  preimages : Option (OrderedMap HexString Bytes)

namespace Journal

variable {σ Account : Type}

def cleanJournal (s : Journal σ) : Journal σ :=
  { s with
    journalHeight := 0
    journal := .empty
    alwaysWarmJournal := .empty
    touched := .empty
    journalDiff := [(0, .empty)] }

/-- The journal that the constructor sets up. -/
def new (stateManager : σ) : Journal σ :=
  cleanJournal ⟨stateManager, .empty, .empty, .empty, [], 0, none, none⟩

def startReportingAccessList (s : Journal σ) : Journal σ := { s with accessList := some .empty }

def startReportingPreimages (s : Journal σ) : Journal σ := { s with preimages := some .empty }

/-- A change of the last item of the diff. -/
def onLast (f : JournalDiffItem → JournalDiffItem) :
    List (Int × JournalDiffItem) → List (Int × JournalDiffItem)
  | [] => []
  | e :: es => (e.1, f e.2) :: es

/-! ## Touched addresses -/

section Touch

variable (stateManager : StateManagerInterface σ Account)

def reportPreimage (s : Journal σ) (address : AddressString) : Except String (Journal σ) :=
  match s.preimages with
  | none => .ok s
  | some preimages => do
    let bytesAddress ← unprefixedHexToBytes address
    match stateManager.getAppliedKey with
    | none => .error "touchAccount: stateManager.getAppliedKey can not be undefined if preimage storing is enabled"
    | some getAppliedKey =>
      .ok { s with preimages := some (preimages.set (bytesToHex (getAppliedKey bytesAddress)) bytesAddress) }

/-- The part of `touchAccount` that the reports do not concern. -/
def markTouched (s : Journal σ) (address : AddressString) : Journal σ :=
  if s.touched.has address then s
  else
    { s with
      touched := s.touched.add address
      journalDiff := onLast (fun diff => { diff with touched := diff.touched.add address })
        s.journalDiff }

def touchAccount (s : Journal σ) (address : AddressString) : Except String (Journal σ) :=
  (s.reportPreimage stateManager address).map (·.markTouched address)

def touchAddress (s : Journal σ) (address : Address) : Except String (Journal σ) :=
  s.touchAccount stateManager (address.toString.drop 2)

def putAccount (s : Journal σ) (address : Address) (account : Option Account) :
    Except String Unit × Journal σ :=
  match s.touchAddress stateManager address with
  | .error e => (.error e, s)
  | .ok s =>
    let (r, state) := stateManager.putAccount s.stateManager address account
    (r, { s with stateManager := state })

def deleteAccount (s : Journal σ) (address : Address) : Except String Unit × Journal σ :=
  match s.touchAddress stateManager address with
  | .error e => (.error e, s)
  | .ok s =>
    let (r, state) := stateManager.deleteAccount s.stateManager address
    (r, { s with stateManager := state })

/-! ## Checkpoints -/

def commit (s : Journal σ) : Except String Unit × Journal σ :=
  let (r, state) := stateManager.commit s.stateManager
  (r, { s with
    journalHeight := s.journalHeight - 1
    journalDiff := (s.journalHeight - 1, .empty) :: s.journalDiff
    stateManager := state })

def checkpoint (s : Journal σ) : Except String Unit × Journal σ :=
  let (r, state) := stateManager.checkpoint s.stateManager
  (r, { s with
    journalHeight := s.journalHeight + 1
    journalDiff := (s.journalHeight + 1, .empty) :: s.journalDiff
    stateManager := state })

/-- The body of the loop of `revert`. -/
def undoItem (s : Journal σ) (diff : JournalDiffItem) : Journal σ :=
  let journal := diff.addresses.keys.foldl
    (fun journal address => if journal.has address then journal.delete address else journal) s.journal
  let journal := diff.slots.entries.foldl
    (fun journal (address, delSlots) =>
      match journal.get address with
      | some slots => journal.set address (delSlots.keys.foldl OrderedMap.delete slots)
      | none => journal) journal
  let touched := diff.touched.keys.foldl
    (fun touched address =>
      if address ≠ RIPEMD160_ADDRESS_STRING then touched.delete address else touched) s.touched
  { s with journal, touched }

/-- The loop of `revert`, and what is left of the diff. -/
def undoItems (s : Journal σ) : List (Int × JournalDiffItem) →
    Journal σ × List (Int × JournalDiffItem)
  | [] => (s, [])
  -- the oldest item stays in the diff, also where it has been undone
  | [e] => if e.1 < s.journalHeight then (s, [e]) else (s.undoItem e.2, [e])
  | e :: es => if e.1 < s.journalHeight then (s, e :: es) else undoItems (s.undoItem e.2) es

def revert (s : Journal σ) : Except String Unit × Journal σ :=
  let (undone, journalDiff) := s.undoItems s.journalDiff
  let (r, state) := stateManager.revert undone.stateManager
  (r, { undone with
    journalDiff
    journalHeight := undone.journalHeight - 1
    stateManager := state })

end Touch

/-! ## Warm addresses and slots -/

/-- `sets.get(key)!.add(x)`. -/
def addAt (sets : OrderedMap AddressString (OrderedSet SlotString)) (key : AddressString)
    (x : SlotString) : Except String (OrderedMap AddressString (OrderedSet SlotString)) :=
  match sets.get key with
  | none => .error "TypeError: Cannot read properties of undefined (reading 'add')"
  | some set => .ok (sets.set key (set.add x))

/-- A key with an empty set, unless the key is there. -/
def ensure (sets : OrderedMap AddressString (OrderedSet SlotString)) (key : AddressString) :
    OrderedMap AddressString (OrderedSet SlotString) :=
  if sets.has key then sets else sets.set key .empty

def addAlwaysWarmAddress (s : Journal σ) (addressStr : HexString) (addToAccessList : Bool) :
    Journal σ :=
  let address := stripHexPrefix addressStr
  { s with
    alwaysWarmJournal := ensure s.alwaysWarmJournal address
    accessList :=
      if addToAccessList then s.accessList.map (ensure · address) else s.accessList }

def addAlwaysWarmSlot (s : Journal σ) (addressStr slotStr : HexString) (addToAccessList : Bool) :
    Except String Unit × Journal σ :=
  let address := stripHexPrefix addressStr
  let s := s.addAlwaysWarmAddress address addToAccessList
  let slot := stripHexPrefix slotStr
  match addAt s.alwaysWarmJournal address slot with
  | .error e => (.error e, s)
  | .ok alwaysWarmJournal =>
    let s := { s with alwaysWarmJournal }
    match addToAccessList, s.accessList with
    | true, some accessList =>
      match addAt accessList address slot with
      | .error e => (.error e, s)
      | .ok accessList => (.ok (), { s with accessList := some accessList })
    | _, _ => (.ok (), s)

def isWarmedAddress (s : Journal σ) (address : Bytes) : Bool :=
  let addressHex := bytesToUnprefixedHex address
  s.journal.has addressHex || s.alwaysWarmJournal.has addressHex

def addWarmedAddress (s : Journal σ) (addressArr : Bytes) : Journal σ :=
  let address := bytesToUnprefixedHex addressArr
  let s :=
    if s.journal.has address then s
    else
      { s with
        journal := s.journal.set address .empty
        journalDiff := onLast (fun diff => { diff with addresses := diff.addresses.add address })
          s.journalDiff }
  { s with accessList := s.accessList.map (ensure · address) }

def isWarmedStorage (s : Journal σ) (address slot : Bytes) : Bool :=
  let addressHex := bytesToUnprefixedHex address
  let alwaysWarm := ((s.alwaysWarmJournal.get addressHex).map
    (·.has (bytesToUnprefixedHex slot))).getD false
  match s.journal.get addressHex with
  | none => alwaysWarm
  | some slots => if slots.has (bytesToUnprefixedHex slot) then true else alwaysWarm

/-- The slot becomes warm, and the diff says so. -/
def markSlot (s : Journal σ) (addressHex : AddressString) (slots : WarmSlots)
    (slotStr : SlotString) : Journal σ :=
  { s with
    journal := s.journal.set addressHex (slots.add slotStr)
    journalDiff := onLast (fun diff =>
      { diff with
        slots := diff.slots.set addressHex
          (((diff.slots.get addressHex).getD .empty).add slotStr) }) s.journalDiff }

def addWarmedStorage (s : Journal σ) (address slot : Bytes) : Except String Unit × Journal σ :=
  let addressHex := bytesToUnprefixedHex address
  let s := if (s.journal.get addressHex).isNone then s.addWarmedAddress address else s
  match s.journal.get addressHex with
  | none => (.error "TypeError: Cannot read properties of undefined (reading 'has')", s)
  | some slots =>
    let slotStr := bytesToUnprefixedHex slot
    let s := if slots.has slotStr then s else s.markSlot addressHex slots slotStr
    match s.accessList with
    | none => (.ok (), s)
    | some accessList =>
      match addAt accessList addressHex slotStr with
      | .error e => (.error e, s)
      | .ok accessList => (.ok (), { s with accessList := some accessList })

/-! ## Calls -/

inductive Call (Account : Type) where
  | checkpoint
  | commit
  | revert
  | putAccount (address : Address) (account : Option Account)
  | deleteAccount (address : Address)
  | addWarmedAddress (address : Bytes)
  | addWarmedStorage (address slot : Bytes)
  | addAlwaysWarmAddress (addressStr : HexString) (addToAccessList : Bool)
  | addAlwaysWarmSlot (addressStr slotStr : HexString) (addToAccessList : Bool)
  | startReportingAccessList
  | startReportingPreimages

/-- The journal after a call. What the call throws is for its caller. -/
def step (stateManager : StateManagerInterface σ Account) (s : Journal σ) : Call Account → Journal σ
  | .checkpoint => (s.checkpoint stateManager).2
  | .commit => (s.commit stateManager).2
  | .revert => (s.revert stateManager).2
  | .putAccount address account => (s.putAccount stateManager address account).2
  | .deleteAccount address => (s.deleteAccount stateManager address).2
  | .addWarmedAddress address => s.addWarmedAddress address
  | .addWarmedStorage address slot => (s.addWarmedStorage address slot).2
  | .addAlwaysWarmAddress addressStr addToAccessList => s.addAlwaysWarmAddress addressStr addToAccessList
  | .addAlwaysWarmSlot addressStr slotStr addToAccessList =>
    (s.addAlwaysWarmSlot addressStr slotStr addToAccessList).2
  | .startReportingAccessList => s.startReportingAccessList
  | .startReportingPreimages => s.startReportingPreimages

def run (stateManager : StateManagerInterface σ Account) (s : Journal σ)
    (calls : List (Call Account)) : Journal σ := calls.foldl (step stateManager) s

/-- What a call does to the checkpoints. -/
def Call.kind : Call Account → UndoLog.Kind
  | .checkpoint => .checkpoint
  | .commit => .commit
  | .revert => .revert
  | _ => .write

/-- The address is made warm for good. -/
def Call.warmsAlways (address : AddressString) : Call Account → Bool
  | .addAlwaysWarmAddress addressStr _ => stripHexPrefix addressStr = address
  | .addAlwaysWarmSlot addressStr _ _ => stripHexPrefix addressStr = address
  | _ => false

/-- The slot is made warm for good. -/
def Call.warmsSlotAlways (address : AddressString) (slot : SlotString) : Call Account → Bool
  | .addAlwaysWarmSlot addressStr slotStr _ =>
    stripHexPrefix addressStr = address && stripHexPrefix slotStr = slot
  | _ => false

end Journal
