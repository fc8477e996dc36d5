-- SUMMARY: Sets that grow under nested checkpoints, and the logs by which a revert takes back what was added.
import Mathlib

/-!
# Undo logs

A set that only grows between checkpoints, with a log of what was added. An
entry of the log is opened wherever a checkpoint is opened or committed, and
carries the number of checkpoints that are open there. A revert takes away what
the newest entries list, down to the first entry with a lower number.
-/

/-- A set, and the log of what was added to it. -/
structure UndoLog (α : Type) where
  content : Set α
  /-- How many checkpoints are open. -/
  height : Int
  /-- The newest entry first: the height it was opened at, and what undoing it takes away. -/
  entries : List (Int × Set α)

namespace UndoLog

variable {α : Type}

/-- Undo the newest entries, down to the first one below `j`. -/
def undo (j : Int) : Set α → List (Int × Set α) → Set α × List (Int × Set α)
  | c, [] => (c, [])
  | c, e :: es => if e.1 < j then (c, e :: es) else undo j (c \ e.2) es

/-- What is left when everything since the checkpoint number `j` is undone. -/
def backTo (j : Int) (u : UndoLog α) : UndoLog α where
  content := (undo j u.content u.entries).1
  height := j - 1
  entries := (undo j u.content u.entries).2

/-- What the newest entry takes away grows by `undone`. -/
def extend (undone : Set α) : List (Int × Set α) → List (Int × Set α)
  | [] => []
  | e :: es => (e.1, e.2 ∪ undone) :: es

def record (new undone : Set α) (u : UndoLog α) : UndoLog α :=
  { u with content := u.content ∪ new, entries := extend undone u.entries }

def checkpoint (u : UndoLog α) : UndoLog α :=
  { u with height := u.height + 1, entries := (u.height + 1, ∅) :: u.entries }

def commit (u : UndoLog α) : UndoLog α :=
  { u with height := u.height - 1, entries := (u.height - 1, ∅) :: u.entries }

def revert (u : UndoLog α) : UndoLog α := backTo u.height u

/-! ## Well-formed logs -/

/-- The heights start at zero and climb by one at most. -/
def Grounded : List (Int × Set α) → Prop
  | [] => False
  | [e] => e.1 = 0
  | e :: f :: es => e.1 ≤ f.1 + 1 ∧ Grounded (f :: es)

/-- The newest entry is at the height of the log. -/
structure WellFormed (u : UndoLog α) : Prop where
  newest : ∃ d es, u.entries = (u.height, d) :: es
  grounded : Grounded u.entries

theorem Grounded.extend {es : List (Int × Set α)} (h : Grounded es) (undone : Set α) :
    Grounded (extend undone es) := by
  match es with
  | [_] => exact h
  | _ :: _ :: _ => exact h

/-- Undoing entries above the ground stops at an entry one below. -/
theorem Grounded.undo {j : Int} (hj : 0 < j) {es : List (Int × Set α)} (h : Grounded es)
    {e : Int × Set α} {rest : List (Int × Set α)} (hes : es = e :: rest) (he : j - 1 ≤ e.1)
    (c : Set α) : ∃ d es', (undo j c es).2 = (j - 1, d) :: es' ∧ Grounded (undo j c es).2 := by
  -- the induction is on the log; an entry that is undone is at least at `j`, so the one below
  -- it is at least at `j - 1` again
  induction es generalizing c e rest with
  | nil => cases hes
  | cons f fs ih =>
    obtain ⟨rfl, rfl⟩ := List.cons.inj hes
    unfold UndoLog.undo
    split
    · rename_i hlow
      have hheight : f.1 = j - 1 := by omega
      exact ⟨f.2, fs, by rw [← hheight], h⟩
    · rename_i hhigh
      match fs, h with
      | [], h =>
        have hzero : f.1 = 0 := h
        omega
      | g :: gs, h => exact ih h.2 rfl (by have := h.1; omega) _

variable {u : UndoLog α}

section

variable (h : u.WellFormed)
include h

theorem WellFormed.record (new undone : Set α) : (u.record new undone).WellFormed where
  newest := by
    obtain ⟨d, es, hes⟩ := h.newest
    exact ⟨d ∪ undone, es, by simp only [UndoLog.record, hes, UndoLog.extend]⟩
  grounded := h.grounded.extend undone

theorem WellFormed.checkpoint : u.checkpoint.WellFormed where
  newest := ⟨∅, u.entries, rfl⟩
  grounded := by
    obtain ⟨d, es, hes⟩ := h.newest
    have hgrounded := h.grounded
    rw [hes] at hgrounded
    simp only [UndoLog.checkpoint, hes]
    exact ⟨le_refl _, hgrounded⟩

theorem WellFormed.commit : u.commit.WellFormed where
  newest := ⟨∅, u.entries, rfl⟩
  grounded := by
    obtain ⟨d, es, hes⟩ := h.newest
    have hgrounded := h.grounded
    rw [hes] at hgrounded
    simp only [UndoLog.commit, hes]
    exact ⟨by dsimp only; omega, hgrounded⟩

theorem WellFormed.revert (hopen : 0 < u.height) : u.revert.WellFormed := by
  obtain ⟨d, es, hes⟩ := h.newest
  obtain ⟨d', es', hleft, hgrounded⟩ := h.grounded.undo hopen hes (by dsimp only; omega) u.content
  exact ⟨⟨d', es', hleft⟩, hgrounded⟩

end

/-! ## Going back to a checkpoint -/

/-- Undoing twice undoes down to the lower number. -/
theorem undo_undo {i j : Int} (hij : i ≤ j) (c : Set α) (es : List (Int × Set α)) :
    undo i (undo j c es).1 (undo j c es).2 = undo i c es := by
  induction es generalizing c with
  | nil => rfl
  | cons e es ih =>
    by_cases hlow : e.1 < j
    · simp only [undo, if_pos hlow]
    · have hnot : ¬ e.1 < i := by omega
      simp only [undo, if_neg hlow, if_neg hnot]
      exact ih _

/-- Nothing that was open before is lost: going back to any checkpoint that is open in `u`
gives the same from `v`. -/
structure Keeps (h : Int) (u v : UndoLog α) : Prop where
  back : ∀ j ≤ h, v.backTo j = u.backTo j

theorem Keeps.refl (h : Int) (u : UndoLog α) : Keeps h u u := ⟨fun _ _ => rfl⟩

theorem Keeps.trans {h : Int} {v w : UndoLog α} (huv : Keeps h u v) (hvw : Keeps h v w) :
    Keeps h u w := ⟨fun j hj => (hvw.back j hj).trans (huv.back j hj)⟩

theorem Keeps.mono {h h' : Int} {v : UndoLog α} (huv : Keeps h u v) (hle : h' ≤ h) :
    Keeps h' u v := ⟨fun j hj => huv.back j (le_trans hj hle)⟩

/-- What is added is taken away again, if the newest entry lists it and nothing that was there
before. -/
theorem WellFormed.keeps_record (h : u.WellFormed) {new undone : Set α} (hnew : new ⊆ undone)
    (hold : Disjoint u.content undone) : Keeps u.height u (u.record new undone) := by
  obtain ⟨d, es, hes⟩ := h.newest
  have hcontent : (u.content ∪ new) \ (d ∪ undone) = u.content \ d := by
    ext x
    have hdisjoint : x ∈ u.content → x ∉ undone := fun hx => Set.disjoint_left.mp hold hx
    have hlisted : x ∈ new → x ∈ undone := fun hx => hnew hx
    simp only [Set.mem_sdiff, Set.mem_union]
    tauto
  refine ⟨fun j hj => ?_⟩
  have hhigh : ¬ u.height < j := by omega
  simp only [backTo, UndoLog.record, hes, UndoLog.extend, undo, if_neg hhigh, hcontent]

theorem keeps_checkpoint (u : UndoLog α) : Keeps u.height u u.checkpoint := by
  refine ⟨fun j hj => ?_⟩
  have hhigh : ¬ u.height + 1 < j := by omega
  simp only [backTo, checkpoint, undo, if_neg hhigh, Set.sdiff_empty]

theorem keeps_commit (u : UndoLog α) : Keeps (u.height - 1) u u.commit := by
  refine ⟨fun j hj => ?_⟩
  have hhigh : ¬ u.height - 1 < j := by omega
  simp only [backTo, commit, undo, if_neg hhigh, Set.sdiff_empty]

theorem keeps_revert (u : UndoLog α) : Keeps (u.height - 1) u u.revert := by
  refine ⟨fun j hj => ?_⟩
  have hle : j ≤ u.height := by omega
  simp only [revert, backTo, undo_undo hle]

/-- Going back to a checkpoint that has just been opened changes nothing. -/
theorem WellFormed.backTo_checkpoint (h : u.WellFormed) :
    u.checkpoint.backTo (u.height + 1) = u := by
  obtain ⟨d, es, hes⟩ := h.newest
  obtain ⟨content, height, entries⟩ := u
  dsimp only at hes
  subst hes
  simp [backTo, UndoLog.checkpoint, undo]

/-! ## Runs -/

/-- What a step does to the checkpoints. -/
inductive Kind where
  | write
  | checkpoint
  | commit
  | revert
  deriving DecidableEq, Repr

/-- How many checkpoints are open after the steps, if none is closed that is not open. -/
def nesting : Nat → List Kind → Option Nat
  | d, [] => some d
  | d, .write :: ks => nesting d ks
  | d, .checkpoint :: ks => nesting (d + 1) ks
  | d + 1, .commit :: ks => nesting d ks
  | d + 1, .revert :: ks => nesting d ks
  | 0, .commit :: _ => none
  | 0, .revert :: _ => none

/-- The steps of a log. A write may be several records. -/
def Steps (u v : UndoLog α) : Kind → Prop
  | .write => v.height = u.height ∧ v.WellFormed ∧ Keeps u.height u v
  | .checkpoint => v = u.checkpoint
  | .commit => v = u.commit
  | .revert => 0 < u.height → v = u.revert

section Run

variable {σ ι : Type} {log : σ → UndoLog α} {kind : ι → Kind} {step : σ → ι → σ}

variable (hstep : ∀ s i, (log s).WellFormed → Steps (log s) (log (step s i)) (kind i))
include hstep

/-- Steps nested above the height `h` leave everything up to there to go back to. -/
theorem run_keeps {h : Int} (hzero : 0 ≤ h) {calls : List ι} {s : σ} {d e : Nat}
    (hwf : (log s).WellFormed) (hheight : (log s).height = h + d)
    (hnest : nesting d (calls.map kind) = some e) :
    (log (calls.foldl step s)).WellFormed ∧ (log (calls.foldl step s)).height = h + e ∧
      Keeps h (log s) (log (calls.foldl step s)) := by
  induction calls generalizing s d with
  | nil =>
    obtain rfl := Option.some.inj hnest
    exact ⟨hwf, hheight, Keeps.refl h _⟩
  | cons i calls ih =>
    have hnext := hstep s i hwf
    rw [List.map_cons] at hnest
    -- one step and the rest of the run
    suffices hone : ∃ d' : Nat, (log (step s i)).WellFormed ∧ (log (step s i)).height = h + d' ∧
        Keeps h (log s) (log (step s i)) ∧ nesting d' (calls.map kind) = some e by
      obtain ⟨d', hwf', hheight', hkeeps, hnest'⟩ := hone
      obtain ⟨hend, hlast, hrest⟩ := ih hwf' hheight' hnest'
      exact ⟨hend, hlast, hkeeps.trans hrest⟩
    match hkind : kind i, d with
    | .write, d =>
      rw [hkind] at hnext hnest
      obtain ⟨hsame, hwf', hkeeps⟩ := hnext
      exact ⟨d, hwf', hsame.trans hheight, hkeeps.mono (by omega), hnest⟩
    | .checkpoint, d =>
      rw [hkind] at hnext hnest
      obtain hnext : log (step s i) = (log s).checkpoint := hnext
      rw [hnext]
      refine ⟨d + 1, hwf.checkpoint, ?_, (keeps_checkpoint _).mono (by omega), hnest⟩
      simp only [checkpoint, hheight]
      omega
    | .commit, d + 1 =>
      rw [hkind] at hnext hnest
      obtain hnext : log (step s i) = (log s).commit := hnext
      rw [hnext]
      refine ⟨d, hwf.commit, ?_, (keeps_commit _).mono (by omega), hnest⟩
      simp only [commit, hheight]
      omega
    | .revert, d + 1 =>
      rw [hkind] at hnext hnest
      have hopen : 0 < (log s).height := by omega
      rw [hnext hopen]
      refine ⟨d, hwf.revert hopen, ?_, (keeps_revert _).mono (by omega), hnest⟩
      simp only [revert, backTo, hheight]
      omega
    | .commit, 0 =>
      rw [hkind] at hnest
      cases hnest
    | .revert, 0 =>
      rw [hkind] at hnest
      cases hnest

/-- A revert gives back the log as it was at the matching checkpoint. -/
theorem run_reverted
    {s : σ} (hwf : (log s).WellFormed) (hzero : 0 ≤ (log s).height) {first last : ι}
    {within : List ι} (hfirst : kind first = .checkpoint) (hlast : kind last = .revert)
    (hwithin : nesting 0 (within.map kind) = some 0) :
    log ((first :: within ++ [last]).foldl step s) = log s := by
  have hopened : log (step s first) = (log s).checkpoint := by
    have hnext := hstep s first hwf
    rwa [hfirst] at hnext
  obtain ⟨hwf', hheight, hkeeps⟩ := run_keeps hstep (h := (log s).height + 1) (by omega)
    (hopened ▸ hwf.checkpoint) (by rw [hopened]; simp [checkpoint]) hwithin
  have hreverted := hstep (within.foldl step (step s first)) last hwf'
  rw [hlast] at hreverted
  rw [List.cons_append, List.foldl_cons, List.foldl_append, List.foldl_cons, List.foldl_nil,
    hreverted (by omega), revert, hheight, Nat.cast_zero, add_zero,
    hkeeps.back _ (le_refl _), hopened, hwf.backTo_checkpoint]

end Run

end UndoLog
