-- SUMMARY: Transient storage with its change journal, and what a revert gives back.
import TsEthereum.Utils.Hex

/-!
# Transient storage

`transientStorage.ts`: the current values, a journal of the values that were
overwritten, and the length of the journal at every open checkpoint. The journal
and the checkpoints have their newest entry first.
-/

structure TransientStorageModification where
  addr : HexString
  key : HexString
  prevValue : Bytes
  deriving DecidableEq, Repr

structure TransientStorage where
  storage : OrderedMap HexString (OrderedMap HexString Bytes)
  changeJournal : List TransientStorageModification
  indices : List Nat
  /-- Only slots of addresses that have a map are ever recorded. -/
  recorded : ∀ m ∈ changeJournal, storage.has m.addr = true

namespace TransientStorage

def zeros : Bytes := List.replicate 32 0

def new : TransientStorage := ⟨.empty, [], [0], by simp⟩

/-- The slot of an address, both by their spellings. -/
def slot (storage : OrderedMap HexString (OrderedMap HexString Bytes)) (addr key : HexString) :
    Bytes :=
  ((storage.get addr).bind (·.get key)).getD zeros

def value (t : TransientStorage) (addr key : HexString) : Bytes := slot t.storage addr key

def get (t : TransientStorage) (addr : Address) (key : Bytes) : Bytes :=
  t.value addr.toString (bytesToHex key)

/-- `storage.get(addr)!.set(key, value)`, with a new map where the address has none. -/
def setSlot (storage : OrderedMap HexString (OrderedMap HexString Bytes)) (addr key : HexString)
    (value : Bytes) : OrderedMap HexString (OrderedMap HexString Bytes) :=
  storage.set addr (((storage.get addr).getD .empty).set key value)

@[simp] theorem slot_setSlot (storage : OrderedMap HexString (OrderedMap HexString Bytes))
    (addr key a k : HexString) (v : Bytes) :
    slot (setSlot storage addr key v) a k = if a = addr ∧ k = key then v else slot storage a k := by
  unfold slot setSlot
  by_cases ha : a = addr
  · subst ha
    by_cases hk : k = key
    · simp [hk]
    · cases storage.get a <;> simp [hk]
  · simp [ha]

theorem has_setSlot {storage : OrderedMap HexString (OrderedMap HexString Bytes)}
    {addr key a : HexString} {v : Bytes} (h : storage.has a = true ∨ a = addr) :
    (setSlot storage addr key v).has a = true := by
  simp only [setSlot, OrderedMap.has_set, Bool.or_eq_true, decide_eq_true_eq]
  tauto

def put (t : TransientStorage) (addr : Address) (key value : Bytes) :
    Except String Unit × TransientStorage :=
  if key.length ≠ 32 then (.error "Transient storage key must be 32 bytes long", t)
  else if value.length > 32 then
    (.error "Transient storage value cannot be longer than 32 bytes", t)
  else
    let addrString := addr.toString
    let keyStr := bytesToHex key
    (.ok (), {
      storage := setSlot t.storage addrString keyStr value
      changeJournal := ⟨addrString, keyStr, t.value addrString keyStr⟩ :: t.changeJournal
      indices := t.indices
      recorded := by
        intro m hm
        rcases List.mem_cons.mp hm with rfl | hm
        · exact has_setSlot (.inr rfl)
        · exact has_setSlot (.inl (t.recorded m hm)) })

def commit (t : TransientStorage) : Except String Unit × TransientStorage :=
  match t.indices with
  | [] => (.error "Nothing to commit", t)
  | _ :: indices => (.ok (), { t with indices })

def checkpoint (t : TransientStorage) : TransientStorage :=
  { t with indices := t.changeJournal.length :: t.indices }

/-- The loop of `revert`, from the newest entry on. -/
def undo (storage : OrderedMap HexString (OrderedMap HexString Bytes)) :
    List TransientStorageModification → OrderedMap HexString (OrderedMap HexString Bytes)
  | [] => storage
  | m :: ms => undo (setSlot storage m.addr m.key m.prevValue) ms

theorem has_undo {storage : OrderedMap HexString (OrderedMap HexString Bytes)} {a : HexString}
    (ms : List TransientStorageModification) (h : storage.has a = true) :
    (undo storage ms).has a = true := by
  induction ms generalizing storage with
  | nil => exact h
  | cons m ms ih => exact ih (has_setSlot (.inl h))

def revert (t : TransientStorage) : Except String Unit × TransientStorage :=
  match t.indices with
  | [] => (.error "Nothing to revert", t)
  | lastCheckpoint :: indices =>
    let newer := t.changeJournal.length - lastCheckpoint
    (.ok (), {
      storage := undo t.storage (t.changeJournal.take newer)
      changeJournal := t.changeJournal.drop newer
      indices
      recorded := fun m hm => has_undo _ (t.recorded m (List.mem_of_mem_drop hm)) })

def clear (t : TransientStorage) : TransientStorage :=
  { t with storage := .empty, changeJournal := [], recorded := by simp }

/-! ## What a revert gives back -/

/-- The values once the modifications are undone. -/
def undone (ms : List TransientStorageModification) (value : HexString → HexString → Bytes) :
    HexString → HexString → Bytes :=
  ms.foldl (fun value m a k => if a = m.addr ∧ k = m.key then m.prevValue else value a k) value

theorem slot_undo (ms : List TransientStorageModification)
    (storage : OrderedMap HexString (OrderedMap HexString Bytes)) :
    slot (undo storage ms) = undone ms (slot storage) := by
  induction ms generalizing storage with
  | nil => rfl
  | cons m ms ih =>
    have hset : slot (setSlot storage m.addr m.key m.prevValue) =
        fun a k => if a = m.addr ∧ k = m.key then m.prevValue else slot storage a k := by
      funext a k
      exact slot_setSlot storage m.addr m.key a k m.prevValue
    exact (ih _).trans (congrArg (undone ms) hset)

/-- Nothing but writes came since `t`, and the journal has what they overwrote. -/
structure Extends (t t' : TransientStorage) : Prop where
  indices : t'.indices = t.indices
  journal : ∃ newer, t'.changeJournal = newer ++ t.changeJournal ∧ undone newer t'.value = t.value

/-- The same values, journal and checkpoints. -/
structure Agrees (t t' : TransientStorage) : Prop where
  value : t'.value = t.value
  changeJournal : t'.changeJournal = t.changeJournal
  indices : t'.indices = t.indices

theorem Extends.refl (t : TransientStorage) : Extends t t := ⟨rfl, [], rfl, rfl⟩

theorem Extends.trans {t t' t'' : TransientStorage} (h : Extends t t') (h' : Extends t' t'') :
    Extends t t'' := by
  obtain ⟨newer, hjournal, hundone⟩ := h.journal
  obtain ⟨newer', hjournal', hundone'⟩ := h'.journal
  refine ⟨h'.indices.trans h.indices, newer' ++ newer, ?_, ?_⟩
  · rw [hjournal', hjournal, List.append_assoc]
  · calc undone (newer' ++ newer) t''.value = undone newer (undone newer' t''.value) :=
          List.foldl_append
      _ = t.value := by rw [hundone', hundone]

theorem Agrees.refl (t : TransientStorage) : Agrees t t := ⟨rfl, rfl, rfl⟩

theorem Agrees.extends {t t' : TransientStorage} (h : Agrees t t') : Extends t t' :=
  ⟨h.indices, [], h.changeJournal, h.value⟩

theorem extends_put (t : TransientStorage) (addr : Address) (key value : Bytes) :
    Extends t (t.put addr key value).2 := by
  unfold put
  split_ifs
  · exact .refl t
  · exact .refl t
  · refine ⟨rfl, [_], rfl, ?_⟩
    funext a k
    simp only [undone, List.foldl_cons, List.foldl_nil, TransientStorage.value, slot_setSlot]
    split_ifs with h
    · rw [h.1, h.2]
    · rfl

theorem value_commit (t : TransientStorage) : t.commit.2.value = t.value := by
  unfold commit
  split <;> rfl

/-- A commit keeps the writes since the checkpoint. -/
theorem commit_checkpoint {t t' : TransientStorage} (h : Extends t.checkpoint t') :
    t'.commit.1 = .ok () ∧ Extends t t'.commit.2 := by
  have hindices : t'.indices = t.changeJournal.length :: t.indices := h.indices
  simp only [commit, hindices]
  exact ⟨trivial, rfl, h.journal⟩

/-- A revert takes the writes since the checkpoint back. -/
theorem revert_checkpoint {t t' : TransientStorage} (h : Extends t.checkpoint t') :
    t'.revert.1 = .ok () ∧ Agrees t t'.revert.2 := by
  have hindices : t'.indices = t.changeJournal.length :: t.indices := h.indices
  obtain ⟨newer, hjournal, hundone⟩ := h.journal
  have hjournal : t'.changeJournal = newer ++ t.changeJournal := hjournal
  have hlength : t'.changeJournal.length - t.changeJournal.length = newer.length := by
    simp [hjournal]
  simp only [revert, hindices, hlength]
  refine ⟨trivial, ?_, ?_, rfl⟩
  · change slot (undo t'.storage (t'.changeJournal.take newer.length)) = t.value
    rw [slot_undo, hjournal, List.take_left]
    exact hundone
  · simp [hjournal]

/-- Where everything was cleared, a checkpoint closes without another change. -/
theorem revert_clear (t t' : TransientStorage) (hindices : t'.indices = t.checkpoint.indices) :
    t'.clear.revert = (.ok (), { t.clear with indices := t.indices }) := by
  have hindices : t'.clear.indices = t.changeJournal.length :: t.indices := hindices
  simp only [revert, hindices]
  simp [clear, undo]

theorem commit_clear (t t' : TransientStorage) (hindices : t'.indices = t.checkpoint.indices) :
    t'.clear.commit = (.ok (), { t.clear with indices := t.indices }) := by
  have hindices : t'.clear.indices = t.changeJournal.length :: t.indices := hindices
  simp only [commit, hindices]
  simp [clear]

end TransientStorage
