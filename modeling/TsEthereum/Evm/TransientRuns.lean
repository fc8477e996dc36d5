-- SUMMARY: Over every well-nested run transient storage answers as a stack of overlays, and its journal leads back to every open checkpoint.
import TsEthereum.Base.OverlayStack
import TsEthereum.Evm.TransientStorage
import TsEthereum.Utils.Account

/-!
# Runs of transient storage

The stack of overlays says what transient storage is for: a put writes to the
innermost overlay, a checkpoint opens one, a commit merges it into the one below
and a revert throws it away. The journal and the indices are right when undoing
the journal down to an index gives what the overlays below it show.
-/

open List Option

namespace TransientStorage

open OverlayStack (snapshotStep snapshotRun nesting)

/-- A slot of an address. -/
abbrev Slot := Address × Bytes

inductive Call where
  | put (addr : Address) (key value : Bytes)
  | checkpoint
  | commit
  | revert

/-- A call, with what it throws. -/
def Call.apply (t : TransientStorage) : Call → Except String Unit × TransientStorage
  | .put addr key value => t.put addr key value
  | .checkpoint => (.ok (), t.checkpoint)
  | .commit => t.commit
  | .revert => t.revert

/-- The key and the value of a put are within their bounds. -/
def Call.accepted : Call → Bool
  | .put _ key value => key.length = 32 ∧ value.length ≤ 32
  | .checkpoint | .commit | .revert => true

/-- What the call does to overlays: a put that throws does nothing. -/
def Call.overlayOp : Call → Option (OverlayStack.Op Slot Bytes)
  | .put addr key value =>
    if key.length = 32 ∧ value.length ≤ 32 then some (.write (addr, key) (some value)) else none
  | .checkpoint => some .checkpoint
  | .commit => some .commit
  | .revert => some .revert

def overlayOps (calls : List Call) : List (OverlayStack.Op Slot Bytes) :=
  calls.filterMap Call.overlayOp

/-- The state after the calls; one that throws is followed by the next. -/
def run (t : TransientStorage) (calls : List Call) : TransientStorage :=
  calls.foldl (fun t call => (call.apply t).2) t

/-- The calls throw exactly where a put is out of bounds. -/
def Answered : TransientStorage → List Call → Prop
  | _, [] => True
  | t, call :: calls => ((call.apply t).1 = .ok () ↔ call.accepted = true) ∧
    Answered (call.apply t).2 calls

/-! ## Values and overlays -/

/-- The values are those of the map, and zeros where it has none. -/
def Shows (value : HexString → HexString → Bytes) (m : Slot → Option Bytes) : Prop :=
  ∀ (addr : Address) (key : Bytes), value addr.toString (bytesToHex key) = (m (addr, key)).getD zeros

/-- Undoing the journal down to every index shows the map at that depth. -/
def Marks : List TransientStorageModification → (HexString → HexString → Bytes) → List Nat →
    List (Slot → Option Bytes) → Prop
  | journal, value, n :: ns, m :: ms => n ≤ journal.length ∧
    Shows (undone (journal.take (journal.length - n)) value) m ∧
    Marks (journal.drop (journal.length - n)) (undone (journal.take (journal.length - n)) value) ns ms
  | _, _, ns, ms => ns = [] ∧ ms = []

/-- The storage shows the innermost map, and its journal leads to the others. The index at the
bottom is there from the start. -/
structure Matches (t : TransientStorage) (m : Slot → Option Bytes) (ms : List (Slot → Option Bytes)) :
    Prop where
  shows : Shows t.value m
  marks : ∃ opened, t.indices = opened ++ [0] ∧ Marks t.changeJournal t.value opened ms

theorem bytesToHex_inj {a b : Bytes} (h : bytesToHex a = bytesToHex b) : a = b :=
  Address.bytesToUnprefixedHex_injective (by simpa [bytesToHex] using h)

theorem address_eq {a b : Address} (h : a.toString = b.toString) : a = b := by
  have hbytes := Address.toString_inj.mp h
  cases a
  cases b
  simpa using hbytes

theorem matches_new : Matches new (fun _ => none) [] where
  shows := fun _ _ => rfl
  marks := ⟨[], rfl, rfl, rfl⟩

variable {m : Slot → Option Bytes}

theorem Shows.update {value : HexString → HexString → Bytes} (h : Shows value m) (addr : Address)
    (key v : Bytes) :
    Shows (fun a k => if a = addr.toString ∧ k = bytesToHex key then v else value a k)
      (Function.update m (addr, key) (some v)) := by
  intro a k
  by_cases hsame : (a, k) = (addr, key)
  · cases hsame
    simp
  · -- spellings of other slots differ
    have hne : ¬(a.toString = addr.toString ∧ bytesToHex k = bytesToHex key) := fun hk =>
      hsame (Prod.ext (address_eq hk.1) (bytesToHex_inj hk.2))
    simp only [hne, if_false, Function.update_of_ne hsame]
    exact h a k

/-- Newer entries do not hide the marks, once they are undone. -/
theorem Marks.append {journal newer : List TransientStorageModification}
    {value : HexString → HexString → Bytes} {ns : List Nat} {ms : List (Slot → Option Bytes)}
    (h : Marks journal (undone newer value) ns ms) : Marks (newer ++ journal) value ns ms := by
  match ns, ms with
  | [], _ => exact h
  | _ :: _, [] => exact h
  | n :: ns, m :: ms =>
    have hle : n ≤ journal.length := h.1
    have hlength : (newer ++ journal).length - n = newer.length + (journal.length - n) := by
      simp only [length_append]
      omega
    have htake : (newer ++ journal).take ((newer ++ journal).length - n) =
        newer ++ journal.take (journal.length - n) := by
      rw [hlength, take_length_add_append]
    have hdrop : (newer ++ journal).drop ((newer ++ journal).length - n) =
        journal.drop (journal.length - n) := by
      rw [hlength, drop_length_add_append]
    have hundone : undone (newer ++ journal.take (journal.length - n)) value =
        undone (journal.take (journal.length - n)) (undone newer value) := foldl_append
    simp only [Marks, htake, hdrop, hundone]
    exact ⟨hle.trans (by simp), h.2⟩

variable {ms : List (Slot → Option Bytes)}

theorem Marks.length_eq {journal : List TransientStorageModification}
    {value : HexString → HexString → Bytes} {ns : List Nat} (h : Marks journal value ns ms) :
    ns.length = ms.length := by
  induction ns generalizing journal value ms with
  | nil => simp [h.2]
  | cons n ns ih =>
    cases ms with
    | nil => cases h.1
    | cons m ms => exact congrArg (· + 1) (ih h.2.2)

/-! ## One call -/

variable {key v : Bytes}

theorem put_of_accepted (t : TransientStorage) (addr : Address)
    (h : key.length = 32 ∧ v.length ≤ 32) :
    (t.put addr key v).1 = .ok () ∧
      (t.put addr key v).2.value =
        (fun a k => if a = addr.toString ∧ k = bytesToHex key then v else t.value a k) ∧
      (t.put addr key v).2.changeJournal =
        ⟨addr.toString, bytesToHex key, t.value addr.toString (bytesToHex key)⟩ ::
          t.changeJournal ∧
      (t.put addr key v).2.indices = t.indices := by
  have hvalue : ¬v.length > 32 := not_lt.mpr h.2
  simp only [put, h.1, ne_eq, not_true_eq_false, if_false, hvalue, true_and, and_true]
  funext a k
  exact slot_setSlot t.storage addr.toString (bytesToHex key) a k v

theorem put_of_not_accepted (t : TransientStorage) (addr : Address)
    (h : ¬(key.length = 32 ∧ v.length ≤ 32)) :
    (t.put addr key v).1 ≠ .ok () ∧ (t.put addr key v).2 = t := by
  unfold put
  split_ifs with hkey hvalue
  · exact ⟨nofun, rfl⟩
  · exact ⟨nofun, rfl⟩
  · exact absurd ⟨not_not.mp hkey, not_lt.mp hvalue⟩ h

variable {t : TransientStorage}

theorem Matches.put (h : Matches t m ms) (addr : Address)
    (haccepted : key.length = 32 ∧ v.length ≤ 32) :
    Matches (t.put addr key v).2 (Function.update m (addr, key) (some v)) ms := by
  obtain ⟨-, hvalue, hjournal, hindices⟩ := t.put_of_accepted addr haccepted
  obtain ⟨opened, hopened, hmarks⟩ := h.marks
  refine ⟨?_, opened, hindices.trans hopened, ?_⟩
  · rw [hvalue]
    exact h.shows.update addr key v
  · rw [hjournal, hvalue]
    -- undoing the new entry gives back what was there
    refine @Marks.append t.changeJournal [_] _ _ _ ?_
    have hback : undone [⟨addr.toString, bytesToHex key, t.value addr.toString (bytesToHex key)⟩]
        (fun a k => if a = addr.toString ∧ k = bytesToHex key then v else t.value a k) =
        t.value := by
      funext a k
      simp only [undone, foldl_cons, foldl_nil]
      split_ifs with hk
      · rw [hk.1, hk.2]
      · rfl
    rw [hback]
    exact hmarks

theorem Matches.checkpoint (h : Matches t m ms) : Matches t.checkpoint m (m :: ms) := by
  obtain ⟨opened, hopened, hmarks⟩ := h.marks
  have hindices : t.checkpoint.indices = (t.changeJournal.length :: opened) ++ [0] :=
    congrArg (t.changeJournal.length :: ·) hopened
  refine ⟨h.shows, _, hindices, ?_⟩
  change Marks t.changeJournal t.value (t.changeJournal.length :: opened) (m :: ms)
  simp only [Marks, Nat.sub_self, take_zero, drop_zero]
  exact ⟨le_rfl, h.shows, hmarks⟩

theorem Matches.commit {n : Slot → Option Bytes} (h : Matches t m (n :: ms)) :
    t.commit.1 = .ok () ∧ Matches t.commit.2 m ms := by
  obtain ⟨opened, hopened, hmarks⟩ := h.marks
  match opened, hmarks with
  | i :: opened, hmarks =>
    have hindices : t.indices = i :: (opened ++ [0]) := hopened
    simp only [TransientStorage.commit, hindices]
    refine ⟨trivial, h.shows, opened, rfl, ?_⟩
    have hsplit : t.changeJournal.take (t.changeJournal.length - i) ++
        t.changeJournal.drop (t.changeJournal.length - i) = t.changeJournal :=
      take_append_drop _ _
    have happend := hmarks.2.2.append
    rwa [hsplit] at happend

theorem Matches.revert {n : Slot → Option Bytes} (h : Matches t m (n :: ms)) :
    t.revert.1 = .ok () ∧ Matches t.revert.2 n ms := by
  obtain ⟨opened, hopened, hmarks⟩ := h.marks
  match opened, hmarks with
  | i :: opened, hmarks =>
    have hindices : t.indices = i :: (opened ++ [0]) := hopened
    simp only [TransientStorage.revert, hindices]
    have hvalue : slot (undo t.storage (t.changeJournal.take (t.changeJournal.length - i))) =
        undone (t.changeJournal.take (t.changeJournal.length - i)) t.value := slot_undo _ _
    refine ⟨trivial, ?_, opened, rfl, ?_⟩
    · change Shows (slot (undo _ _)) n
      rw [hvalue]
      exact hmarks.2.1
    · change Marks _ (slot (undo _ _)) opened ms
      rw [hvalue]
      exact hmarks.2.2

/-- A call answers as its bounds say, and does to the storage what it does to the overlays. -/
theorem Matches.apply (h : Matches t m ms) (call : Call) :
    match call.overlayOp with
    | none => call.accepted = false ∧ (call.apply t).1 ≠ .ok () ∧ (call.apply t).2 = t
    | some op => call.accepted = true ∧ ∀ m' ms', snapshotStep (m :: ms) op = some (m' :: ms') →
        (call.apply t).1 = .ok () ∧ Matches (call.apply t).2 m' ms' := by
  cases call with
  | put addr key v =>
    by_cases haccepted : key.length = 32 ∧ v.length ≤ 32
    · simp only [Call.overlayOp, Call.accepted, haccepted, and_self, if_true, decide_true, true_and]
      rintro m' ms' ⟨rfl, rfl⟩
      exact ⟨(t.put_of_accepted addr haccepted).1, h.put addr haccepted⟩
    · simp only [Call.overlayOp, Call.accepted, haccepted, if_false, decide_false, true_and]
      exact t.put_of_not_accepted addr haccepted
  | checkpoint =>
    refine ⟨rfl, ?_⟩
    rintro m' ms' ⟨rfl, rfl⟩
    exact ⟨rfl, h.checkpoint⟩
  | commit =>
    refine ⟨rfl, fun m' ms' hstep => ?_⟩
    match ms, hstep with
    | n :: ms, hstep =>
      obtain ⟨rfl, rfl⟩ := List.cons.inj (some.inj hstep)
      exact h.commit
  | revert =>
    refine ⟨rfl, fun m' ms' hstep => ?_⟩
    match ms, hstep with
    | n :: ms, hstep =>
      obtain ⟨rfl, rfl⟩ := List.cons.inj (some.inj hstep)
      exact h.revert

/-! ## Runs -/

/-- A run that goes through on the snapshots answers, and ends showing the last of them. -/
theorem Matches.run {calls : List Call} {t : TransientStorage} {m m' : Slot → Option Bytes}
    {ms ms' : List (Slot → Option Bytes)} (h : Matches t m ms)
    (hrun : snapshotRun (m :: ms) (overlayOps calls) = some (m' :: ms')) :
    Answered t calls ∧ Matches (run t calls) m' ms' := by
  induction calls generalizing t m ms with
  | nil =>
    obtain ⟨rfl, rfl⟩ := List.cons.inj (some.inj hrun)
    exact ⟨trivial, h⟩
  | cons call calls ih =>
    have hcall := h.apply call
    cases hop : call.overlayOp with
    | none =>
      simp only [hop] at hcall
      obtain ⟨hrefused, hthrows, hsame⟩ := hcall
      have hrest : snapshotRun (m :: ms) (overlayOps calls) = some (m' :: ms') := by
        simpa [overlayOps, hop] using hrun
      obtain ⟨hanswered, hmatches⟩ := ih (hsame ▸ h) hrest
      exact ⟨⟨by simp [hrefused, hthrows], hanswered⟩, hmatches⟩
    | some op =>
      simp only [hop] at hcall
      obtain ⟨haccepted, hstep⟩ := hcall
      have hrest : (snapshotStep (m :: ms) op).bind (snapshotRun · (overlayOps calls)) =
          some (m' :: ms') := by
        simpa [overlayOps, hop, snapshotRun] using hrun
      obtain ⟨ns, hns, hrest⟩ := bind_eq_some_iff.mp hrest
      obtain ⟨n, ns, rfl⟩ := OverlayStack.snapshotStep_eq_cons hns
      obtain ⟨hok, hmatches⟩ := hstep n ns hns
      obtain ⟨hanswered, hmatches⟩ := ih hmatches hrest
      exact ⟨⟨by simp [haccepted, hok], hanswered⟩, hmatches⟩

/-- Over a well-nested run the storage answers as the stack of overlays, where a slot that no
overlay has is zeros; exactly the puts out of bounds throw, there is an index for every open
checkpoint, and undoing the journal down to it shows the overlays below. -/
theorem run_answers {calls : List Call} {d : Nat} (h : nesting 0 (overlayOps calls) = some d) :
    ∃ s : OverlayStack Slot Bytes,
      OverlayStack.run ⟨fun _ => none, []⟩ (overlayOps calls) = some s ∧ Answered new calls ∧
      (∀ addr key, (run new calls).get addr key = (s.lookup (addr, key)).getD zeros) ∧
      (run new calls).indices.length = d + 1 ∧
      ∃ below, s.levels = s.lookup :: below ∧ Matches (run new calls) s.lookup below := by
  obtain ⟨s, hrun, hdepth⟩ := OverlayStack.run_of_nesting
    (s := (⟨fun _ => none, []⟩ : OverlayStack Slot Bytes)) h
  obtain ⟨below, hbelow⟩ := s.levels_eq_cons
  have hsnapshots : snapshotRun [fun _ => none] (overlayOps calls) = some (s.lookup :: below) := by
    have hlevels := OverlayStack.levels_run (⟨fun _ => none, []⟩ : OverlayStack Slot Bytes)
      (overlayOps calls)
    rw [hrun] at hlevels
    exact hlevels.symm.trans (congrArg some hbelow)
  obtain ⟨hanswered, hmatches⟩ := matches_new.run hsnapshots
  refine ⟨s, hrun, hanswered, hmatches.shows, ?_, below, hbelow, hmatches⟩
  obtain ⟨opened, hopened, hmarks⟩ := hmatches.marks
  have hlength : below.length = d := by
    have hlevels := s.length_levels
    rw [hbelow, hdepth] at hlevels
    exact Nat.succ.inj hlevels
  simp [hopened, hmarks.length_eq, hlength]

/-- A slot written below two checkpoints and under the inner one, of which the inner is committed
and the outer taken back. -/
def sampleCalls : List Call :=
  [.put .zero zeros [1], .checkpoint, .checkpoint, .put .zero zeros [2], .put .zero [] [3],
    .commit, .revert]

theorem run_answers_sampleCalls : nesting 0 (overlayOps sampleCalls) = some 0 ∧
    (run new sampleCalls).get .zero zeros = [1] := by
  have hnested : nesting 0 (overlayOps sampleCalls) = some 0 := rfl
  obtain ⟨s, hrun, -, hget, -⟩ := run_answers hnested
  obtain rfl := some.inj hrun
  exact ⟨hnested, hget .zero zeros⟩

end TransientStorage
