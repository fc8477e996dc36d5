-- SUMMARY: Stacks of overlays over a finite map, and the stack of snapshots they stand for.
import Mathlib.Logic.Function.Basic
import Mathlib.Data.List.Basic

/-!
# Overlay stacks

Writes under an open checkpoint go to an overlay; a commit merges the innermost
overlay into what is below it and a revert throws it away. What such a stack
means is the stack of the maps seen at every depth: there a checkpoint copies
the map on top, a commit forgets the copy below it, and a revert goes back to it.
-/

open List Option Function

/-- A map with overlays of written (`some (some v)`) and removed (`some none`) keys, the
innermost overlay first. -/
structure OverlayStack (κ ν : Type) where
  base : κ → Option ν
  overlays : List (κ → Option (Option ν))

namespace OverlayStack

variable {κ ν : Type}

inductive Op (κ ν : Type) where
  | write (k : κ) (x : Option ν)
  | checkpoint
  | commit
  | revert

/-- The value of `k` in the innermost overlay that wrote it, else in `base`. -/
def lookupIn (base : κ → Option ν) : List (κ → Option (Option ν)) → κ → Option ν
  | [], k => base k
  | o :: os, k => (o k).getD (lookupIn base os k)

def lookup (s : OverlayStack κ ν) : κ → Option ν := lookupIn s.base s.overlays

variable [DecidableEq κ]

def write (s : OverlayStack κ ν) (k : κ) (x : Option ν) : OverlayStack κ ν :=
  match s.overlays with
  | [] => { s with base := Function.update s.base k x }
  | o :: os => { s with overlays := Function.update o k (some x) :: os }

def step (s : OverlayStack κ ν) : Op κ ν → Option (OverlayStack κ ν)
  | .write k x => some (s.write k x)
  | .checkpoint => some { s with overlays := (fun _ => none) :: s.overlays }
  | .commit =>
    match s.overlays with
    | [] => none
    | [o] => some { base := fun k => (o k).getD (s.base k), overlays := [] }
    | o :: p :: os => some { s with overlays := (fun k => (o k).orElse fun _ => p k) :: os }
  | .revert =>
    match s.overlays with
    | [] => none
    | _ :: os => some { s with overlays := os }

def run (s : OverlayStack κ ν) : List (Op κ ν) → Option (OverlayStack κ ν)
  | [] => some s
  | op :: ops => (s.step op).bind (run · ops)

theorem run_append (s : OverlayStack κ ν) (ops ops' : List (Op κ ν)) :
    s.run (ops ++ ops') = (s.run ops).bind (run · ops') := by
  induction ops generalizing s with
  | nil => rfl
  | cons op ops ih =>
    simp only [cons_append, run]
    cases s.step op with
    | none => rfl
    | some t => exact ih t

/-! ## Snapshots -/

/-- The maps seen at every depth, the innermost first. -/
def levelsIn (base : κ → Option ν) : List (κ → Option (Option ν)) → List (κ → Option ν)
  | [] => [base]
  | o :: os => lookupIn base (o :: os) :: levelsIn base os

def levels (s : OverlayStack κ ν) : List (κ → Option ν) := levelsIn s.base s.overlays

/-- One operation on a stack of snapshots. -/
def snapshotStep : List (κ → Option ν) → Op κ ν → Option (List (κ → Option ν))
  | m :: ms, .write k x => some (Function.update m k x :: ms)
  | m :: ms, .checkpoint => some (m :: m :: ms)
  | m :: _ :: ms, .commit => some (m :: ms)
  | _ :: m :: ms, .revert => some (m :: ms)
  | _, _ => none

def snapshotRun (ms : List (κ → Option ν)) : List (Op κ ν) → Option (List (κ → Option ν))
  | [] => some ms
  | op :: ops => (snapshotStep ms op).bind (snapshotRun · ops)

variable {ms : List (κ → Option ν)}

/-- Opening and closing checkpoints brings no new map into sight. -/
theorem snapshotStep_subset {ms' : List (κ → Option ν)} {op : Op κ ν} (hop : ∀ k x, op ≠ .write k x)
    (h : snapshotStep ms op = some ms') : ms' ⊆ ms := by
  match op, ms with
  | .write k x, _ => exact absurd rfl (hop k x)
  | .checkpoint, m :: ms =>
    obtain rfl := some.inj h
    simp
  | .commit, m :: n :: ms =>
    obtain rfl := some.inj h
    simp
  | .revert, m :: n :: ms =>
    obtain rfl := some.inj h
    simp
  | .checkpoint, [] => cases h
  | .commit, [] => cases h
  | .commit, [_] => cases h
  | .revert, [] => cases h
  | .revert, [_] => cases h

/-- There is always a map on top. -/
theorem snapshotStep_eq_cons {ns : List (κ → Option ν)} {op : Op κ ν}
    (h : snapshotStep ms op = some ns) : ∃ m' ms', ns = m' :: ms' := by
  match op, ms with
  | .write _ _, _ :: _ => exact ⟨_, _, (some.inj h).symm⟩
  | .checkpoint, _ :: _ => exact ⟨_, _, (some.inj h).symm⟩
  | .commit, _ :: _ :: _ => exact ⟨_, _, (some.inj h).symm⟩
  | .revert, _ :: _ :: _ => exact ⟨_, _, (some.inj h).symm⟩

theorem snapshotRun_append (ms : List (κ → Option ν)) (ops ops' : List (Op κ ν)) :
    snapshotRun ms (ops ++ ops') = (snapshotRun ms ops).bind (snapshotRun · ops') := by
  induction ops generalizing ms with
  | nil => rfl
  | cons op ops ih =>
    simp only [cons_append, snapshotRun]
    cases snapshotStep ms op with
    | none => rfl
    | some ns => exact ih ns

omit [DecidableEq κ] in
theorem levelsIn_eq_cons (base : κ → Option ν) (os : List (κ → Option (Option ν))) :
    ∃ ms, levelsIn base os = lookupIn base os :: ms := by
  cases os with
  | nil => exact ⟨[], rfl⟩
  | cons o os => exact ⟨_, rfl⟩

omit [DecidableEq κ] in
theorem levels_eq_cons (s : OverlayStack κ ν) : ∃ ms, s.levels = s.lookup :: ms :=
  levelsIn_eq_cons s.base s.overlays

variable {s : OverlayStack κ ν}

omit [DecidableEq κ] in
/-- What is seen on top is the first snapshot. -/
theorem lookup_of_levels {t : OverlayStack κ ν} (h : s.levels = t.levels) :
    s.lookup = t.lookup := by
  obtain ⟨ms, hs⟩ := s.levels_eq_cons
  obtain ⟨ns, ht⟩ := t.levels_eq_cons
  rw [hs, ht] at h
  exact (List.cons.inj h).1

omit [DecidableEq κ] in
@[simp] theorem length_levels (s : OverlayStack κ ν) : s.levels.length = s.overlays.length + 1 := by
  obtain ⟨base, os⟩ := s
  induction os with
  | nil => rfl
  | cons o os ih => simpa [levels, levelsIn] using ih

theorem levels_write (s : OverlayStack κ ν) (k : κ) (x : Option ν) {m : κ → Option ν}
    (h : s.levels = m :: ms) : (s.write k x).levels = Function.update m k x :: ms := by
  obtain ⟨base, os⟩ := s
  cases os with
  | nil =>
    obtain ⟨rfl, rfl⟩ := List.cons.inj h
    rfl
  | cons o os =>
    obtain ⟨rfl, rfl⟩ := List.cons.inj h
    simp only [write, levels, levelsIn, List.cons.injEq, and_true]
    funext k'
    by_cases hk : k' = k
    · subst hk
      simp [lookupIn]
    · simp [lookupIn, update_of_ne hk]

/-- Writing what is there already changes nothing that can be seen. -/
theorem levels_write_lookup (s : OverlayStack κ ν) (k : κ) :
    (s.write k (s.lookup k)).levels = s.levels := by
  obtain ⟨ms, hs⟩ := s.levels_eq_cons
  rw [s.levels_write k _ hs, update_eq_self, hs]

omit [DecidableEq κ] in
/-- A key that no overlay has is seen the same at every depth. -/
theorem eq_base_of_mem_levels {k : κ} (h : ∀ o ∈ s.overlays, o k = none) :
    ∀ m ∈ s.levels, m k = s.base k := by
  obtain ⟨base, os⟩ := s
  induction os with
  | nil =>
    intro m hm
    obtain rfl := mem_singleton.mp hm
    rfl
  | cons o os ih =>
    have hrest := ih (fun p hp => h p (mem_cons_of_mem _ hp))
    have hnone : o k = none := h o mem_cons_self
    intro m hm
    rcases mem_cons.mp hm with rfl | hm
    · obtain ⟨ms, hms⟩ := levelsIn_eq_cons base os
      have hmem : lookupIn base os ∈ levelsIn base os := hms ▸ mem_cons_self
      simpa [lookupIn, hnone] using hrest _ hmem
    · exact hrest m hm

/-- Operations on overlays are operations on snapshots. -/
theorem levels_step (s : OverlayStack κ ν) (op : Op κ ν) :
    (s.step op).map levels = snapshotStep s.levels op := by
  cases op with
  | write k x =>
    obtain ⟨ms, hs⟩ := s.levels_eq_cons
    simp only [step, map_some, hs, snapshotStep, s.levels_write k x hs]
  | checkpoint =>
    obtain ⟨ms, hs⟩ := s.levels_eq_cons
    have hnew : levels { s with overlays := (fun _ => none) :: s.overlays } =
        s.lookup :: s.levels := rfl
    simp only [step, map_some, hnew, hs, snapshotStep]
  | commit =>
    obtain ⟨base, os⟩ := s
    match os with
    | [] => rfl
    | [o] => rfl
    | o :: p :: os =>
      simp only [step, map_some, levels, levelsIn, snapshotStep, Option.some.injEq,
        List.cons.injEq, and_true]
      funext k
      simp only [lookupIn]
      cases o k <;> rfl
  | revert =>
    obtain ⟨base, os⟩ := s
    match os with
    | [] => rfl
    | [o] => rfl
    | o :: p :: os => rfl

theorem levels_run (s : OverlayStack κ ν) (ops : List (Op κ ν)) :
    (s.run ops).map levels = snapshotRun s.levels ops := by
  induction ops generalizing s with
  | nil => rfl
  | cons op ops ih =>
    have hstep := s.levels_step op
    simp only [run, snapshotRun, ← hstep]
    cases s.step op with
    | none => rfl
    | some t => exact ih t

/-! ## Nesting -/

/-- The number of open checkpoints after `ops`, if none is closed that is not open. -/
def nesting : Nat → List (Op κ ν) → Option Nat
  | d, [] => some d
  | d, .write _ _ :: ops => nesting d ops
  | d, .checkpoint :: ops => nesting (d + 1) ops
  | d + 1, .commit :: ops => nesting d ops
  | d + 1, .revert :: ops => nesting d ops
  | 0, .commit :: _ => none
  | 0, .revert :: _ => none

omit [DecidableEq κ] in
theorem nesting_append (d : Nat) (ops ops' : List (Op κ ν)) :
    nesting d (ops ++ ops') = (nesting d ops).bind (nesting · ops') := by
  induction ops generalizing d with
  | nil => rfl
  | cons op ops ih =>
    match op, d with
    | .write k x, d => exact ih d
    | .checkpoint, d => exact ih (d + 1)
    | .commit, d + 1 => exact ih d
    | .revert, d + 1 => exact ih d
    | .commit, 0 => rfl
    | .revert, 0 => rfl

/-- Operations that close every checkpoint they open, and no other. -/
def Balanced (ops : List (Op κ ν)) : Prop := nesting 0 ops = some 0

variable {ops : List (Op κ ν)}

/-- Well nested operations run through. -/
theorem run_of_nesting {e : Nat} (h : nesting s.overlays.length ops = some e) :
    ∃ t, s.run ops = some t ∧ t.overlays.length = e := by
  induction ops generalizing s with
  | nil => exact ⟨s, rfl, some.inj h⟩
  | cons op ops ih =>
    obtain ⟨base, os⟩ := s
    match op, os with
    | .write k x, [] => exact ih h
    | .write k x, o :: os => exact ih (s := ⟨base, update o k (some x) :: os⟩) h
    | .checkpoint, os => exact ih (s := ⟨base, (fun _ => none) :: os⟩) h
    | .commit, [o] => exact ih (s := ⟨fun k => (o k).getD (base k), []⟩) h
    | .commit, o :: p :: os =>
      exact ih (s := ⟨base, (fun k => (o k).orElse fun _ => p k) :: os⟩) h
    | .revert, o :: os => exact ih (s := ⟨base, os⟩) h
    | .commit, [] => cases h
    | .revert, [] => cases h

/-- Under an open checkpoint, operations nested within it leave everything below alone. -/
theorem run_above {base : κ → Option ν} {o : κ → Option (Option ν)}
    {above below : List (κ → Option (Option ν))} {e : Nat} (h : nesting above.length ops = some e) :
    ∃ o' above', run ⟨base, o :: (above ++ below)⟩ ops = some ⟨base, o' :: (above' ++ below)⟩ ∧
      above'.length = e := by
  induction ops generalizing o above with
  | nil => exact ⟨o, above, rfl, some.inj h⟩
  | cons op ops ih =>
    have hrest {o : κ → Option (Option ν)} {above : List (κ → Option (Option ν))}
        (h : nesting above.length ops = some e) := ih h (o := o)
    match op, above with
    | .write k x, above => exact hrest h
    | .checkpoint, above =>
      have hopened : nesting (o :: above).length ops = some e := h
      exact hrest hopened
    | .commit, p :: above =>
      have hclosed : nesting above.length ops = some e := h
      exact hrest hclosed
    | .revert, p :: above =>
      have hclosed : nesting above.length ops = some e := h
      exact hrest hclosed
    | .commit, [] => cases h
    | .revert, [] => cases h

/-- A revert undoes exactly what was done since the matching checkpoint. -/
theorem run_reverted (s : OverlayStack κ ν) (h : Balanced ops) :
    s.run (.checkpoint :: ops ++ [.revert]) = some s := by
  obtain ⟨base, os⟩ := s
  have hnone : nesting ([] : List (κ → Option (Option ν))).length ops = some 0 := h
  obtain ⟨o', above', hrun, habove⟩ : ∃ o' above', run ⟨base, (fun _ => none) :: ([] ++ os)⟩ ops =
      some ⟨base, o' :: (above' ++ os)⟩ ∧ above'.length = 0 := run_above hnone
  obtain rfl := length_eq_zero_iff.mp habove
  have hinner : run (⟨base, os⟩ : OverlayStack κ ν) (.checkpoint :: ops) =
      some ⟨base, o' :: os⟩ := hrun
  rw [run_append, hinner]
  rfl

omit [DecidableEq κ] in
/-- Without open checkpoints the underlying map is the map that is seen. -/
theorem lookup_of_overlays_nil (h : s.overlays = []) : s.lookup = s.base := by
  unfold lookup
  rw [h]
  rfl

end OverlayStack
