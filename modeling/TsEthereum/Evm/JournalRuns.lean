-- SUMMARY: A revert takes the journal back to its checkpoint, but for what was made warm for good.
import TsEthereum.Evm.Journal

/-!
# Reverts of the journal

The warm and touched addresses are a set of entries, and the diff is an undo log
of that set. Every call is a step of the log, so a revert gives back the entries
of the matching checkpoint whatever was nested in between.
-/

open List Option

/-- What the journal keeps and a revert can take away. -/
inductive JournalEntry where
  | address (a : AddressString)
  | slot (a : AddressString) (k : SlotString)
  | touched (a : AddressString)

namespace JournalDiffItem

/-- The entries that undoing the item removes. A slot goes with its address. -/
def undone (diff : JournalDiffItem) : Set JournalEntry
  | .address a => diff.addresses.has a = true
  | .slot a k => diff.addresses.has a = true ∨ ∃ ks, diff.slots.get a = some ks ∧ ks.has k = true
  | .touched a => diff.touched.has a = true ∧ a ≠ RIPEMD160_ADDRESS_STRING

variable {diff : JournalDiffItem} {a : AddressString}

@[simp] theorem mem_undone_address :
    .address a ∈ diff.undone ↔ diff.addresses.has a = true := Iff.rfl

@[simp] theorem mem_undone_slot {k : SlotString} : .slot a k ∈ diff.undone ↔
      diff.addresses.has a = true ∨ ∃ ks, diff.slots.get a = some ks ∧ ks.has k = true := Iff.rfl

@[simp] theorem mem_undone_touched :
    .touched a ∈ diff.undone ↔ diff.touched.has a = true ∧ a ≠ RIPEMD160_ADDRESS_STRING := Iff.rfl

theorem undone_empty : empty.undone = ∅ := by
  ext e
  cases e <;> simp [empty]

end JournalDiffItem

namespace Journal

variable {σ Account : Type} {stateManager : StateManagerInterface σ Account}

/-- The entries that are there. The one address that stays touched is left out. -/
def entries (s : Journal σ) : Set JournalEntry
  | .address a => s.journal.has a = true
  | .slot a k => ∃ ks, s.journal.get a = some ks ∧ ks.has k = true
  | .touched a => s.touched.has a = true ∧ a ≠ RIPEMD160_ADDRESS_STRING

variable {s : Journal σ} {a : AddressString}

@[simp] theorem mem_entries_address : .address a ∈ s.entries ↔ s.journal.has a = true := Iff.rfl

@[simp] theorem mem_entries_slot {k : SlotString} :
    .slot a k ∈ s.entries ↔ ∃ ks, s.journal.get a = some ks ∧ ks.has k = true := Iff.rfl

@[simp] theorem mem_entries_touched :
    .touched a ∈ s.entries ↔ s.touched.has a = true ∧ a ≠ RIPEMD160_ADDRESS_STRING := Iff.rfl

def logEntries (diff : List (Int × JournalDiffItem)) : List (Int × Set JournalEntry) :=
  diff.map fun e => (e.1, e.2.undone)

/-- The undo log that the journal is. -/
def log (s : Journal σ) : UndoLog JournalEntry where
  content := s.entries
  height := s.journalHeight
  entries := logEntries s.journalDiff

/-! ## Undoing an item -/

theorem foldl_delete_present {κ ν : Type} [DecidableEq κ] (ks : List κ) (m : OrderedMap κ ν) (k : κ) :
    (ks.foldl (fun m k => if m.has k then m.delete k else m) m).get k =
      if k ∈ ks then none else m.get k := by
  induction ks generalizing m with
  | nil => simp
  | cons j ks ih =>
    rw [foldl_cons, ih]
    by_cases hj : m.has j = true
    · rw [if_pos hj, OrderedMap.get_delete]
      by_cases hk : k ∈ ks <;> simp [hk]
    · rw [if_neg hj]
      by_cases hkj : k = j
      · subst hkj
        have hnone : m.get k = none := by simpa [OrderedMap.has] using hj
        simp [hnone]
      · simp [hkj]

theorem has_foldl_untouch (ks : List AddressString) (touched : OrderedSet AddressString)
    (a : AddressString) :
    ((ks.foldl (fun touched address =>
        if address ≠ RIPEMD160_ADDRESS_STRING then touched.delete address else touched) touched).has
      a = true) ↔ touched.has a = true ∧ (a ∈ ks → a = RIPEMD160_ADDRESS_STRING) := by
  induction ks generalizing touched with
  | nil => simp
  | cons k ks ih =>
    rw [foldl_cons, ih]
    by_cases hk : k = RIPEMD160_ADDRESS_STRING
    · simp only [hk, ne_eq, not_true_eq_false, if_false, mem_cons]
      tauto
    · simp only [ne_eq, hk, not_false_eq_true, if_true, OrderedMap.has_delete, mem_cons,
        Bool.and_eq_true, Bool.not_eq_true', decide_eq_false_iff_not]
      constructor
      · rintro ⟨⟨hne, hhas⟩, hrest⟩
        exact ⟨hhas, fun hor => hrest (hor.resolve_left hne)⟩
      · rintro ⟨hhas, hor⟩
        exact ⟨⟨fun heq => hk (heq ▸ hor (.inl heq)), hhas⟩, fun hmem => hor (.inr hmem)⟩

/-- What undoing an item leaves of the warm slots of an address. -/
theorem get_undoItem_journal (s : Journal σ) (diff : JournalDiffItem) (a : AddressString) :
    (s.undoItem diff).journal.get a =
      if diff.addresses.has a = true then none
      else (s.journal.get a).map fun slots =>
        ((diff.slots.get a).map (fun ks => ks.keys.foldl OrderedMap.delete slots)).getD slots := by
  let val (ks : OrderedSet SlotString) (slots : Option WarmSlots) : Option WarmSlots :=
    slots.map (ks.keys.foldl OrderedMap.delete)
  refine Eq.trans (OrderedMap.read_foldl_update _ (fun (journal : JournalType) a => journal.get a)
    val ?_ diff.slots _ a) ?_
  · rintro journal ⟨address, ks⟩ k
    dsimp only
    cases hget : journal.get address with
    | none =>
      by_cases hk : k = address
      · simp [val, hk, hget]
      · simp [hk]
    | some slots =>
      by_cases hk : k = address
      · simp [val, hk, hget]
      · simp [hk]
  · rw [foldl_delete_present]
    simp only [← OrderedMap.has_iff, val]
    split
    · cases diff.slots.get a <;> rfl
    · cases diff.slots.get a <;> cases s.journal.get a <;> rfl

theorem entries_undoItem (s : Journal σ) (diff : JournalDiffItem) :
    (s.undoItem diff).entries = s.entries \ diff.undone := by
  ext e
  rw [Set.mem_sdiff]
  match e with
  | .address a =>
    rw [mem_entries_address, mem_entries_address, JournalDiffItem.mem_undone_address,
      OrderedMap.has, get_undoItem_journal]
    by_cases hgone : diff.addresses.has a = true
    · simp [hgone]
    · rw [if_neg hgone, isSome_map]
      exact ⟨fun h => ⟨h, hgone⟩, fun h => h.1⟩
  | .slot a k =>
    rw [mem_entries_slot, mem_entries_slot, JournalDiffItem.mem_undone_slot, get_undoItem_journal]
    by_cases hgone : diff.addresses.has a = true
    · simp [hgone]
    · rw [if_neg hgone]
      cases s.journal.get a with
      | none => simp
      | some slots =>
        cases diff.slots.get a with
        | none => simp [hgone]
        | some ks =>
          simp only [hgone, map_some, getD_some, Option.some.injEq,
            exists_eq_left', false_or, Bool.false_eq_true]
          rw [OrderedMap.has, OrderedMap.get_foldl_delete, OrderedMap.has_iff (m := ks)]
          by_cases hk : k ∈ ks.keys
          · simp [hk]
          · simp [hk, OrderedMap.has]
  | .touched a =>
    rw [mem_entries_touched, mem_entries_touched, JournalDiffItem.mem_undone_touched]
    simp only [undoItem, has_foldl_untouch, ← OrderedMap.has_iff]
    tauto

theorem journalHeight_undoItem (s : Journal σ) (diff : JournalDiffItem) :
    (s.undoItem diff).journalHeight = s.journalHeight := rfl

/-- The loop of `revert` undoes the log, where it ends before the oldest item. -/
theorem undoItems_spec {diff : List (Int × JournalDiffItem)} (hopen : 0 < s.journalHeight)
    (hgrounded : UndoLog.Grounded (logEntries diff)) :
    ((s.undoItems diff).1.entries, logEntries (s.undoItems diff).2) =
      UndoLog.undo s.journalHeight s.entries (logEntries diff) := by
  induction diff generalizing s with
  | nil => rfl
  | cons e es ih =>
    cases es with
    | nil =>
      have hzero : e.1 = 0 := hgrounded
      have hlow : e.1 < s.journalHeight := hzero ▸ hopen
      simp [undoItems, logEntries, UndoLog.undo, hlow]
    | cons f fs =>
      have hrest : UndoLog.Grounded (logEntries (f :: fs)) := hgrounded.2
      simp only [undoItems]
      by_cases hlow : e.1 < s.journalHeight
      · simp [logEntries, UndoLog.undo, hlow]
      · have hnext := ih (s := s.undoItem e.2) hopen hrest
        rw [entries_undoItem] at hnext
        simp only [if_neg hlow, hnext, journalHeight_undoItem]
        simp [logEntries, UndoLog.undo, hlow]

theorem undoItems_fields (s : Journal σ) (diff : List (Int × JournalDiffItem)) :
    (s.undoItems diff).1.journalHeight = s.journalHeight ∧
      (s.undoItems diff).1.alwaysWarmJournal = s.alwaysWarmJournal ∧
      ((s.undoItems diff).1.touched.has RIPEMD160_ADDRESS_STRING =
        s.touched.has RIPEMD160_ADDRESS_STRING) := by
  have hitem (s : Journal σ) (item : JournalDiffItem) :
      (s.undoItem item).touched.has RIPEMD160_ADDRESS_STRING =
        s.touched.has RIPEMD160_ADDRESS_STRING := by
    rw [Bool.eq_iff_iff]
    exact (has_foldl_untouch item.touched.keys s.touched _).trans ⟨fun h => h.1, fun h => ⟨h, fun _ => rfl⟩⟩
  induction diff generalizing s with
  | nil => exact ⟨rfl, rfl, rfl⟩
  | cons e es ih =>
    cases es with
    | nil =>
      simp only [undoItems]
      split
      · exact ⟨rfl, rfl, rfl⟩
      · exact ⟨rfl, rfl, hitem s e.2⟩
    | cons f fs =>
      simp only [undoItems]
      split
      · exact ⟨rfl, rfl, rfl⟩
      · obtain ⟨hheight, halways, htouched⟩ := ih (s.undoItem e.2)
        exact ⟨hheight, halways, htouched.trans (hitem s e.2)⟩

/-! ## Calls are steps of the log -/

/-- A write of the journal is a write of its log. -/
def Writes (s t : Journal σ) : Prop :=
  s.log.WellFormed → UndoLog.Steps s.log t.log .write

variable {t : Journal σ}

theorem Writes.of_eq (h : t.log = s.log) : Writes s t :=
  fun hwf => ⟨congrArg UndoLog.height h, h ▸ hwf, h ▸ UndoLog.Keeps.refl _ _⟩

theorem Writes.trans {u : Journal σ} (hst : Writes s t) (htu : Writes t u) : Writes s u := by
  intro hwf
  obtain ⟨hheight, hwf', hkeeps⟩ := hst hwf
  obtain ⟨hheight', hwf'', hkeeps'⟩ := htu hwf'
  exact ⟨hheight'.trans hheight, hwf'', hkeeps.trans (hheight ▸ hkeeps')⟩

theorem Writes.record (new undone : Set JournalEntry) (h : t.log = s.log.record new undone)
    (hnew : new ⊆ undone) (hold : Disjoint s.entries undone) : Writes s t :=
  fun hwf => ⟨by rw [h]; rfl, h ▸ hwf.record new undone, h ▸ hwf.keeps_record hnew hold⟩

theorem logEntries_onLast {f : JournalDiffItem → JournalDiffItem} {undone : Set JournalEntry}
    (hf : ∀ diff, (f diff).undone = diff.undone ∪ undone) (diff : List (Int × JournalDiffItem)) :
    logEntries (onLast f diff) = UndoLog.extend undone (logEntries diff) := by
  cases diff with
  | nil => rfl
  | cons e es => simp [logEntries, onLast, UndoLog.extend, hf]

theorem writes_markTouched (s : Journal σ) (address : AddressString) :
    Writes s (s.markTouched address) := by
  unfold markTouched
  split
  · exact .of_eq rfl
  · rename_i hnew
    let new : Set JournalEntry := {e | e = .touched address ∧ address ≠ RIPEMD160_ADDRESS_STRING}
    refine .record new new ?_ (Set.Subset.refl _) ?_
    · have hentries : entries { s with touched := s.touched.add address } = s.entries ∪ new := by
        ext e
        cases e with
        | touched a =>
          simp [new]
          grind
        | _ => simp [new]
      have hdiff : logEntries (onLast (fun diff => { diff with touched := diff.touched.add address })
          s.journalDiff) = UndoLog.extend new (logEntries s.journalDiff) := by
        apply logEntries_onLast
        intro diff
        ext e
        cases e with
        | touched a =>
          simp [new]
          grind
        | _ => simp [new]
      exact congrArg₂ (UndoLog.mk · s.journalHeight ·) hentries hdiff
    · rw [Set.disjoint_left]
      rintro _ hold ⟨rfl, -⟩
      exact hnew hold.1

theorem writes_addWarmedAddress (s : Journal σ) (address : Bytes) :
    Writes s (s.addWarmedAddress address) := by
  unfold addWarmedAddress
  dsimp only
  split
  · exact .of_eq rfl
  · rename_i hcold
    let a := bytesToUnprefixedHex address
    let undone : Set JournalEntry := {e | e = .address a ∨ ∃ k, e = .slot a k}
    have hnone : s.journal.get a = none := by simpa [OrderedMap.has] using hcold
    refine .record {.address a} undone ?_ ?_ ?_
    · have hentries : entries { s with journal := s.journal.set a .empty } =
          s.entries ∪ {.address a} := by
        ext e
        cases e with
        | address b => simp
        | slot b k =>
          by_cases hb : b = a
          · simp [hb, hnone]
          · simp [hb]
        | touched b => simp
      have hdiff : logEntries (onLast (fun diff => { diff with addresses := diff.addresses.add a })
          s.journalDiff) = UndoLog.extend undone (logEntries s.journalDiff) := by
        apply logEntries_onLast
        intro diff
        ext e
        cases e <;> simp [undone] <;> grind
      exact congrArg₂ (UndoLog.mk · s.journalHeight ·) hentries hdiff
    · rintro _ rfl
      exact .inl rfl
    · rw [Set.disjoint_left]
      rintro _ hold (rfl | ⟨k, rfl⟩)
      · exact hcold hold
      · obtain ⟨ks, hks, -⟩ := hold
        rw [hnone] at hks
        cases hks

theorem writes_markSlot {address : AddressString} {slots : WarmSlots} {slot : SlotString}
    (hslots : s.journal.get address = some slots) (hcold : ¬ slots.has slot = true) :
    Writes s (s.markSlot address slots slot) := by
  refine .record {.slot address slot} {.slot address slot} ?_
    (Set.Subset.refl _) ?_
  · have hentries : (s.markSlot address slots slot).entries = s.entries ∪ {.slot address slot} := by
      ext e
      cases e with
      | address a =>
        by_cases ha : a = address
        · simp [markSlot, ha, OrderedMap.has, hslots]
        · simp [markSlot, ha]
      | slot a k =>
        by_cases ha : a = address
        · simp [markSlot, ha, hslots]
        · simp [markSlot, ha]
      | touched a => simp [markSlot]
    have hdiff : logEntries (s.markSlot address slots slot).journalDiff =
        UndoLog.extend {.slot address slot} (logEntries s.journalDiff) := by
      unfold markSlot
      dsimp only
      apply logEntries_onLast
      intro diff
      ext e
      cases e with
      | address a => simp
      | slot a k =>
        by_cases ha : a = address
        · cases hks : diff.slots.get address <;> simp [ha, hks] <;> tauto
        · simp [ha]
      | touched a => simp
    exact congrArg₂ (UndoLog.mk · s.journalHeight ·) hentries hdiff
  · rw [Set.disjoint_left]
    intro e hold hslot
    obtain rfl := Set.mem_singleton_iff.mp hslot
    obtain ⟨ks, hks, hold⟩ := hold
    rw [hslots] at hks
    obtain rfl := some.inj hks
    exact hcold hold

theorem writes_addWarmedStorage (s : Journal σ) (address slot : Bytes) :
    Writes s (s.addWarmedStorage address slot).2 := by
  unfold addWarmedStorage
  dsimp only
  have hwarm : Writes s (if (s.journal.get (bytesToUnprefixedHex address)).isNone = true then
      s.addWarmedAddress address else s) := by
    split
    · exact writes_addWarmedAddress s address
    · exact .of_eq rfl
  refine hwarm.trans ?_
  generalize (if (s.journal.get (bytesToUnprefixedHex address)).isNone = true then
    s.addWarmedAddress address else s) = t
  cases hslots : t.journal.get (bytesToUnprefixedHex address) with
  | none => exact .of_eq rfl
  | some slots =>
    dsimp only
    have hslot : Writes t (if slots.has (bytesToUnprefixedHex slot) = true then t
        else t.markSlot (bytesToUnprefixedHex address) slots (bytesToUnprefixedHex slot)) := by
      split
      · exact .of_eq rfl
      · rename_i hcold
        exact writes_markSlot hslots hcold
    refine hslot.trans ?_
    generalize (if slots.has (bytesToUnprefixedHex slot) = true then t
      else t.markSlot (bytesToUnprefixedHex address) slots (bytesToUnprefixedHex slot)) = u
    -- the access list is a report that the log does not read
    cases haccess : u.accessList with
    | none => exact .of_eq rfl
    | some accessList =>
      dsimp only
      cases addAt accessList (bytesToUnprefixedHex address) (bytesToUnprefixedHex slot) <;>
        exact .of_eq rfl

theorem log_addAlwaysWarmSlot (s : Journal σ) (addressStr slotStr : HexString) (report : Bool) :
    (s.addAlwaysWarmSlot addressStr slotStr report).2.log = s.log := by
  unfold addAlwaysWarmSlot
  dsimp only
  split
  · rfl
  · split
    · split <;> rfl
    · rfl

variable {address : Address}

section

variable (h : s.touchAddress stateManager address = .ok t)
include h

/-- Where touching an address does not throw, it marks the address besides reporting it. -/
theorem touchAddress_ok :
    ∃ preimages, t = markTouched { s with preimages } (address.toString.drop 2) := by
  unfold touchAddress touchAccount reportPreimage at h
  split at h
  · obtain rfl := Except.ok.inj h
    exact ⟨s.preimages, rfl⟩
  · cases hbytes : unprefixedHexToBytes (address.toString.drop 2) with
    | error e =>
      rw [hbytes] at h
      cases h
    | ok bytes =>
      rw [hbytes] at h
      dsimp only [bind, Except.bind] at h
      split at h
      · cases h
      · obtain rfl := Except.ok.inj h
        exact ⟨_, rfl⟩

theorem writes_touchAddress : Writes s t := by
  obtain ⟨preimages, rfl⟩ := touchAddress_ok h
  have hreport : Writes s { s with preimages } := .of_eq rfl
  exact hreport.trans (writes_markTouched _ _)

end

theorem log_revert (hwf : s.log.WellFormed) (hopen : 0 < s.journalHeight) :
    (s.revert stateManager).2.log = s.log.revert := by
  have hundone := undoItems_spec hopen hwf.grounded
  obtain ⟨hheight, -, -⟩ := undoItems_fields s s.journalDiff
  obtain ⟨hentries, hdiff⟩ := Prod.mk.inj hundone
  have hcontent : entries (s.revert stateManager).2 = (s.undoItems s.journalDiff).1.entries := by
    ext e
    cases e <;> rfl
  simp only [log, UndoLog.revert, UndoLog.backTo, hcontent, hentries]
  exact congrArg₂ (UndoLog.mk _ · ·) (congrArg (· - 1) hheight) hdiff

/-- Every call is a step of the log. -/
theorem log_step (stateManager : StateManagerInterface σ Account) (s : Journal σ)
    (call : Call Account) (hwf : s.log.WellFormed) :
    UndoLog.Steps s.log (s.step stateManager call).log call.kind := by
  match call with
  | .checkpoint =>
    have hlog : (s.checkpoint stateManager).2.log = s.log.checkpoint := by
      simp [log, checkpoint, UndoLog.checkpoint, logEntries, JournalDiffItem.undone_empty]
      ext e
      cases e <;> rfl
    exact hlog
  | .commit =>
    have hlog : (s.commit stateManager).2.log = s.log.commit := by
      simp [log, commit, UndoLog.commit, logEntries, JournalDiffItem.undone_empty]
      ext e
      cases e <;> rfl
    exact hlog
  | .revert => exact fun hopen => log_revert hwf hopen
  | .putAccount address account =>
    refine (?_ : Writes s (s.putAccount stateManager address account).2) hwf
    unfold putAccount
    cases htouch : s.touchAddress stateManager address with
    | error e => exact .of_eq rfl
    | ok t => exact (writes_touchAddress htouch).trans (.of_eq rfl)
  | .deleteAccount address =>
    refine (?_ : Writes s (s.deleteAccount stateManager address).2) hwf
    unfold deleteAccount
    cases htouch : s.touchAddress stateManager address with
    | error e => exact .of_eq rfl
    | ok t => exact (writes_touchAddress htouch).trans (.of_eq rfl)
  | .addWarmedAddress address => exact writes_addWarmedAddress s address hwf
  | .addWarmedStorage address slot => exact writes_addWarmedStorage s address slot hwf
  | .addAlwaysWarmAddress addressStr report => exact Writes.of_eq rfl hwf
  | .addAlwaysWarmSlot addressStr slotStr report =>
    exact Writes.of_eq (log_addAlwaysWarmSlot s addressStr slotStr report) hwf
  | .startReportingAccessList => exact Writes.of_eq rfl hwf
  | .startReportingPreimages => exact Writes.of_eq rfl hwf

/-! ## What is warm for good -/

theorem has_ensure (sets : OrderedMap AddressString (OrderedSet SlotString)) (key a : AddressString) :
    (ensure sets key).has a = (sets.has a || decide (key = a)) := by
  unfold ensure
  by_cases ha : key = a
  · subst ha
    split
    · rename_i hhas
      simp [hhas]
    · simp
  · split
    · simp [ha]
    · simp [ha, Ne.symm ha]

/-- The slot is warm for good. -/
def alwaysWarmSlot (s : Journal σ) (a : AddressString) (k : SlotString) : Bool :=
  ((s.alwaysWarmJournal.get a).map (·.has k)).getD false

theorem get_ensure (sets : OrderedMap AddressString (OrderedSet SlotString)) (key a : AddressString)
    (k : SlotString) : (((ensure sets key).get a).map (OrderedMap.has · k)).getD false =
      ((sets.get a).map (OrderedMap.has · k)).getD false := by
  unfold ensure
  split
  · rfl
  · rename_i hnew
    by_cases ha : a = key
    · have hnone : sets.get key = none := by simpa [OrderedMap.has] using hnew
      simp [ha, hnone]
    · simp [ha]

/-- What `addAlwaysWarmSlot` leaves in the journal of what is always warm. -/
theorem alwaysWarmJournal_addAlwaysWarmSlot (s : Journal σ) (addressStr slotStr : HexString)
    (report : Bool) : ∃ slots, (ensure s.alwaysWarmJournal (stripHexPrefix addressStr)).get
        (stripHexPrefix addressStr) = some slots ∧
      (s.addAlwaysWarmSlot addressStr slotStr report).2.alwaysWarmJournal =
        (ensure s.alwaysWarmJournal (stripHexPrefix addressStr)).set (stripHexPrefix addressStr)
          (slots.add (stripHexPrefix slotStr)) := by
  have hthere : (ensure s.alwaysWarmJournal (stripHexPrefix addressStr)).has
      (stripHexPrefix addressStr) = true := by simp [has_ensure]
  obtain ⟨slots, hslots⟩ := isSome_iff_exists.mp hthere
  refine ⟨slots, hslots, ?_⟩
  simp only [addAlwaysWarmSlot, addAlwaysWarmAddress, stripHexPrefix_stripHexPrefix, addAt, hslots]
  split
  · split <;> rfl
  · rfl

theorem alwaysWarm_touchAddress (h : s.touchAddress stateManager address = .ok t) :
    t.alwaysWarmJournal = s.alwaysWarmJournal := by
  obtain ⟨preimages, rfl⟩ := touchAddress_ok h
  unfold markTouched
  split <;> rfl

theorem alwaysWarm_addWarmedAddress (s : Journal σ) (address : Bytes) :
    (s.addWarmedAddress address).alwaysWarmJournal = s.alwaysWarmJournal := by
  unfold addWarmedAddress
  dsimp only
  split <;> rfl

theorem alwaysWarm_addWarmedStorage (s : Journal σ) (address slot : Bytes) :
    (s.addWarmedStorage address slot).2.alwaysWarmJournal = s.alwaysWarmJournal := by
  have hwarm : (if (s.journal.get (bytesToUnprefixedHex address)).isNone = true then
      s.addWarmedAddress address else s).alwaysWarmJournal = s.alwaysWarmJournal := by
    split
    · exact alwaysWarm_addWarmedAddress s address
    · rfl
  unfold addWarmedStorage
  dsimp only
  rw [← hwarm]
  generalize (if (s.journal.get (bytesToUnprefixedHex address)).isNone = true then
    s.addWarmedAddress address else s) = t
  split
  · rfl
  · split
    · split <;> rfl
    · split <;> split <;> rfl

/-- The calls that make addresses warm for good, and what the others leave alone. -/
theorem alwaysWarm_step (stateManager : StateManagerInterface σ Account) (s : Journal σ)
    (call : Call Account) : (∀ a, (s.step stateManager call).alwaysWarmJournal.has a =
      (s.alwaysWarmJournal.has a || call.warmsAlways a)) ∧
    ∀ a k, (s.step stateManager call).alwaysWarmSlot a k =
      (s.alwaysWarmSlot a k || call.warmsSlotAlways a k) := by
  have hsame {t : Journal σ} (h : t.alwaysWarmJournal = s.alwaysWarmJournal) :
      (∀ a, t.alwaysWarmJournal.has a = (s.alwaysWarmJournal.has a || false)) ∧
      ∀ a k, t.alwaysWarmSlot a k = (s.alwaysWarmSlot a k || false) := by
    simp [alwaysWarmSlot, h]
  cases call with
  | checkpoint => exact hsame rfl
  | commit => exact hsame rfl
  | revert => exact hsame (undoItems_fields s s.journalDiff).2.1
  | putAccount address account =>
    apply hsame
    simp only [step, putAccount]
    split
    · rfl
    · rename_i t htouch
      have halways : t.alwaysWarmJournal = s.alwaysWarmJournal := alwaysWarm_touchAddress htouch
      exact halways
  | deleteAccount address =>
    apply hsame
    simp only [step, deleteAccount]
    split
    · rfl
    · rename_i t htouch
      have halways : t.alwaysWarmJournal = s.alwaysWarmJournal := alwaysWarm_touchAddress htouch
      exact halways
  | addWarmedAddress address => exact hsame (alwaysWarm_addWarmedAddress s address)
  | addWarmedStorage address slot => exact hsame (alwaysWarm_addWarmedStorage s address slot)
  | addAlwaysWarmAddress addressStr report =>
    refine ⟨fun a => has_ensure _ _ a, fun a k => ?_⟩
    exact (get_ensure _ _ a k).trans (Bool.or_false _).symm
  | addAlwaysWarmSlot addressStr slotStr report =>
    obtain ⟨slots, hslots, hafter⟩ := s.alwaysWarmJournal_addAlwaysWarmSlot addressStr slotStr report
    refine ⟨fun a => ?_, fun a k => ?_⟩
    · simp only [step, hafter, OrderedMap.has_set, has_ensure, Call.warmsAlways, eq_comm (a := a)]
      grind
    · simp only [step, alwaysWarmSlot, hafter, OrderedMap.get_set, Call.warmsSlotAlways]
      rw [← get_ensure s.alwaysWarmJournal (stripHexPrefix addressStr) a k]
      by_cases ha : a = stripHexPrefix addressStr
      · simp [ha, hslots, Bool.or_comm, eq_comm]
      · simp [ha, Ne.symm ha]
  | startReportingAccessList => exact hsame rfl
  | startReportingPreimages => exact hsame rfl

theorem alwaysWarm_run (stateManager : StateManagerInterface σ Account) (s : Journal σ)
    (calls : List (Call Account)) : (∀ a, (s.run stateManager calls).alwaysWarmJournal.has a =
      (s.alwaysWarmJournal.has a || calls.any (Call.warmsAlways a))) ∧
    ∀ a k, (s.run stateManager calls).alwaysWarmSlot a k =
      (s.alwaysWarmSlot a k || calls.any (Call.warmsSlotAlways a k)) := by
  induction calls generalizing s with
  | nil => simp [run]
  | cons call calls ih =>
    obtain ⟨haddress, hslot⟩ := alwaysWarm_step stateManager s call
    obtain ⟨haddresses, hslots⟩ := ih (s.step stateManager call)
    refine ⟨fun a => ?_, fun a k => ?_⟩
    · exact (haddresses a).trans (by rw [haddress, any_cons, Bool.or_assoc])
    · exact (hslots a k).trans (by rw [hslot, any_cons, Bool.or_assoc])

/-! ## Reverts and commits -/

theorem log_new (st : σ) : (new st).log.WellFormed ∧ (new st).log.height = 0 :=
  ⟨⟨⟨_, [], rfl⟩, rfl⟩, rfl⟩

theorem isWarmedStorage_eq (s : Journal σ) (address slot : Bytes) : s.isWarmedStorage address slot =
      (((s.journal.get (bytesToUnprefixedHex address)).map
        (OrderedMap.has · (bytesToUnprefixedHex slot))).getD false ||
        s.alwaysWarmSlot (bytesToUnprefixedHex address) (bytesToUnprefixedHex slot)) := by
  unfold isWarmedStorage
  dsimp only
  cases s.journal.get (bytesToUnprefixedHex address) with
  | none => rfl
  | some slots =>
    cases hslot : slots.has (bytesToUnprefixedHex slot) <;> simp [hslot, alwaysWarmSlot]

/-- The journal says the same of warm and touched addresses, but for what `calls` made warm for
good. The one address that stays touched is left out. -/
structure Restored (calls : List (Call Account)) (s t : Journal σ) : Prop where
  isWarmedAddress : ∀ address, t.isWarmedAddress address =
    (s.isWarmedAddress address || calls.any (Call.warmsAlways (bytesToUnprefixedHex address)))
  isWarmedStorage : ∀ address slot, t.isWarmedStorage address slot =
    (s.isWarmedStorage address slot ||
      calls.any (Call.warmsSlotAlways (bytesToUnprefixedHex address) (bytesToUnprefixedHex slot)))
  touched : ∀ a, a ≠ RIPEMD160_ADDRESS_STRING → t.touched.has a = s.touched.has a

/-- The entries are the warm addresses and slots. -/
theorem journal_of_entries (hentries : t.entries = s.entries) (a : AddressString) (k : SlotString) :
    t.journal.has a = s.journal.has a ∧ ((t.journal.get a).map (OrderedMap.has · k)).getD false =
        ((s.journal.get a).map (OrderedMap.has · k)).getD false := by
  have hslot (u : Journal σ) : ((u.journal.get a).map (OrderedMap.has · k)).getD false = true ↔
      .slot a k ∈ u.entries := by
    rw [mem_entries_slot]
    cases u.journal.get a <;> simp
  constructor
  · rw [Bool.eq_iff_iff, ← mem_entries_address, ← mem_entries_address, hentries]
  · rw [Bool.eq_iff_iff, hslot, hslot, hentries]

theorem Restored.of_entries {calls : List (Call Account)} (h : t.entries = s.entries)
    (haddress : ∀ a, t.alwaysWarmJournal.has a =
      (s.alwaysWarmJournal.has a || calls.any (Call.warmsAlways a)))
    (hslot : ∀ a k, t.alwaysWarmSlot a k =
      (s.alwaysWarmSlot a k || calls.any (Call.warmsSlotAlways a k))) : Restored calls s t where
  isWarmedAddress := fun address => by
    simp only [Journal.isWarmedAddress, (journal_of_entries h _ []).1, haddress, Bool.or_assoc]
  isWarmedStorage := fun address slot => by
    rw [isWarmedStorage_eq, isWarmedStorage_eq, (journal_of_entries h _ _).2, hslot, Bool.or_assoc]
  touched := fun a ha => by
    have hmem : .touched a ∈ t.entries ↔ .touched a ∈ s.entries := by rw [h]
    rw [Bool.eq_iff_iff]
    simpa [ha] using hmem

theorem restored_commit (stateManager : StateManagerInterface σ Account) (s : Journal σ) :
    Restored ([] : List (Call Account)) s (s.commit stateManager).2 := by
  refine .of_entries ?_ (fun a => (Bool.or_false _).symm) (fun a k => (Bool.or_false _).symm)
  ext e
  cases e <;> rfl

theorem run_append (stateManager : StateManagerInterface σ Account) (s : Journal σ)
    (calls calls' : List (Call Account)) :
    s.run stateManager (calls ++ calls') = (s.run stateManager calls).run stateManager calls' :=
  foldl_append

/-- In a well nested run a revert gives back what was warm and touched at the matching
checkpoint, whatever was committed or reverted in between, but for what was made warm for good;
a commit changes nothing of it. -/
theorem run_restored (stateManager : StateManagerInterface σ Account) (st : σ)
    {before within : List (Call Account)}
    (hbefore : (UndoLog.nesting 0 (before.map Call.kind)).isSome)
    (hwithin : UndoLog.nesting 0 (within.map Call.kind) = some 0) :
    Restored within ((new st).run stateManager before)
        ((new st).run stateManager (before ++ .checkpoint :: within ++ [.revert])) ∧
      Restored ([] : List (Call Account))
        ((new st).run stateManager (before ++ .checkpoint :: within))
        ((new st).run stateManager (before ++ .checkpoint :: within ++ [.commit])) ∧
      ∀ last ∈ [.revert, .commit],
        ((new st).run stateManager (before ++ .checkpoint :: within ++ [last])).touched.has
            RIPEMD160_ADDRESS_STRING =
          ((new st).run stateManager (before ++ .checkpoint :: within)).touched.has
            RIPEMD160_ADDRESS_STRING := by
  obtain ⟨depth, hdepth⟩ := isSome_iff_exists.mp hbefore
  obtain ⟨hwf, hheight⟩ := log_new st
  obtain ⟨hwf', hheight', -⟩ := UndoLog.run_keeps (log_step stateManager)
    (le_refl (0 : Int)) hwf (d := 0) (by simpa using hheight) hdepth
  have hopen : (Call.checkpoint : Call Account).kind = .checkpoint := rfl
  have hclose : (Call.revert : Call Account).kind = .revert := rfl
  have hreverted := UndoLog.run_reverted (log_step stateManager) hwf' (by omega) hopen hclose hwithin
  refine ⟨?_, ?_, ?_⟩
  · obtain ⟨haddress, hslot⟩ := alwaysWarm_run stateManager
      ((new st).run stateManager before) (.checkpoint :: within ++ [.revert])
    rw [append_assoc, run_append]
    refine .of_entries (congrArg UndoLog.content hreverted) (fun a => ?_) (fun a k => ?_)
    · simpa [Call.warmsAlways] using haddress a
    · simpa [Call.warmsSlotAlways] using hslot a k
  · rw [run_append _ _ _ [.commit]]
    exact restored_commit stateManager _
  · intro last hlast
    rw [run_append _ _ _ [last]]
    rcases List.mem_pair.mp hlast with rfl | rfl
    · exact (undoItems_fields _ _).2.2
    · rfl

/-- A state manager that keeps nothing. -/
def blankState : StateManagerInterface Unit Unit where
  putAccount := fun _ _ _ => (.ok (), ())
  deleteAccount := fun _ _ => (.ok (), ())
  checkpoint := fun _ => (.ok (), ())
  commit := fun _ => (.ok (), ())
  revert := fun _ => (.ok (), ())
  getAppliedKey := none

/-- A slot is warmed again in every frame, and one frame is committed into one that fails. -/
def nestedWarming : List (Call Unit) :=
  [.addWarmedStorage [1] [7], .checkpoint, .addWarmedStorage [1] [8], .addWarmedStorage [2] [7],
    .commit, .checkpoint, .addWarmedStorage [1] [7], .addAlwaysWarmAddress ['0', 'x', '0', '5'] false,
    .revert, .addWarmedAddress [2]]

theorem run_restored_nestedWarming : Restored nestedWarming
        ((new ()).run blankState [.checkpoint, .addWarmedAddress [1]]) ((new ()).run blankState
          ([.checkpoint, .addWarmedAddress [1]] ++ .checkpoint :: nestedWarming ++ [.revert])) ∧
      Restored ([] : List (Call Unit))
        ((new ()).run blankState ([.checkpoint, .addWarmedAddress [1]] ++ .checkpoint :: nestedWarming))
        ((new ()).run blankState
          ([.checkpoint, .addWarmedAddress [1]] ++ .checkpoint :: nestedWarming ++ [.commit])) := by
  have hrun := @run_restored Unit Unit blankState () [.checkpoint, .addWarmedAddress [1]]
    nestedWarming (by decide) (by decide)
  exact ⟨hrun.1, hrun.2.1⟩

/-- What is made warm for good under a checkpoint stays warm when it is reverted. -/
theorem alwaysWarm_not_reverted : ¬ ∀ (within : List (Call Unit)) (address : Bytes),
      UndoLog.nesting 0 (within.map Call.kind) = some 0 →
        ((new ()).run blankState (.checkpoint :: within ++ [.revert])).isWarmedAddress address =
          (new () : Journal Unit).isWarmedAddress address := by
  intro hall
  have hsame := hall [.addAlwaysWarmAddress ['0', 'x', '0', '5'] false] [5] rfl
  exact absurd hsame (by decide)

end Journal
