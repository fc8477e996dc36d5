-- SUMMARY: Actions that touch the part of a state that belongs to one key, and loops of them.

/-!
# Slices

A state is seen from many keys, and each key has its slice of it. An action that is
local to a key looks at its slice only and leaves all others. What a loop of such
actions makes of a slice is up to the rounds for its key, wherever they come.
-/

variable {σ ι τ κ α β : Type}

/-- What comes after an action goes on from its result. -/
theorem bind_of_result {p : StateM σ α} (f : α → StateM σ β) {s : σ} {a : α} (h : (p s).1 = a) :
    (p >>= f) s = f a (p s).2 := by
  subst h
  rfl

/-- The action looks at nothing but the slice of `i`, and changes nothing else. -/
structure LocalTo (slice : σ → ι → τ) (i : ι) (p : StateM σ α) : Prop where
  frame : ∀ (s : σ) (j : ι), j ≠ i → slice (p s).2 j = slice s j
  result : ∀ s t : σ, slice s i = slice t i → (p s).1 = (p t).1
  own : ∀ s t : σ, slice s i = slice t i → slice (p s).2 i = slice (p t).2 i

namespace LocalTo

variable {slice : σ → ι → τ} {i : ι}

/-! ## Building local actions -/

theorem pure (a : α) : LocalTo slice i (Pure.pure a : StateM σ α) where
  frame := fun _ _ _ => rfl
  result := fun _ _ _ => rfl
  own := fun _ _ h => h

theorem bind {p : StateM σ α} {f : α → StateM σ β} (hp : LocalTo slice i p)
    (hf : ∀ a, LocalTo slice i (f a)) : LocalTo slice i (p >>= f) where
  frame := fun s j hj => ((hf (p s).1).frame (p s).2 j hj).trans (hp.frame s j hj)
  result := by
    intro s t h
    change (f (p s).1 (p s).2).1 = (f (p t).1 (p t).2).1
    rw [hp.result s t h]
    exact (hf (p t).1).result _ _ (hp.own s t h)
  own := by
    intro s t h
    change slice (f (p s).1 (p s).2).2 i = slice (f (p t).1 (p t).2).2 i
    rw [hp.result s t h]
    exact (hf (p t).1).own _ _ (hp.own s t h)

/-- A value that is read off the slice. -/
theorem read {f : σ → α} (g : τ → α) (hf : ∀ s : σ, f s = g (slice s i)) :
    LocalTo slice i (fun s => (f s, s) : StateM σ α) where
  frame := fun _ _ _ => rfl
  result := by
    intro s t h
    change f s = f t
    rw [hf s, hf t, h]
  own := fun _ _ h => h

/-- A change of the slice. -/
theorem modify {f : σ → σ} (g : τ → τ) (hframe : ∀ (s : σ) (j : ι), j ≠ i → slice (f s) j = slice s j)
    (hown : ∀ s : σ, slice (f s) i = g (slice s i)) :
    LocalTo slice i (fun s => ((), f s) : StateM σ Unit) where
  frame := hframe
  result := fun _ _ _ => rfl
  own := by
    intro s t h
    change slice (f s) i = slice (f t) i
    rw [hown s, hown t, h]

/-! ## What local actions do -/

/-- A local action carries equal slices to equal slices, also those of other keys. -/
theorem congr {p : StateM σ α} (h : LocalTo slice i p) {s t : σ} {j : ι}
    (hs : slice s j = slice t j) : slice (p s).2 j = slice (p t).2 j := by
  rcases Classical.em (j = i) with rfl | hj
  · exact h.own s t hs
  · exact (h.frame s j hj).trans (hs.trans (h.frame t j hj).symm)

variable [DecidableEq ι] {owner : κ → ι} {f : κ → StateM σ Unit}

/-- The rounds of a loop that belong to other keys could as well be left out. -/
theorem forM_filter (hf : ∀ x, LocalTo slice (owner x) (f x)) (l : List κ) {s t : σ}
    (hs : slice s i = slice t i) :
    slice (l.forM f s).2 i = slice ((l.filter (owner · = i)).forM f t).2 i := by
  induction l generalizing s t with
  | nil => exact hs
  | cons x l ih =>
    change slice (l.forM f (f x s).2).2 i = _
    cases hx : decide (owner x = i)
    · rw [List.filter_cons_of_neg (by simpa using hx)]
      have hother : i ≠ owner x := fun h => of_decide_eq_false hx h.symm
      exact ih (((hf x).frame s i hother).trans hs)
    · rw [List.filter_cons_of_pos (by simpa using hx)]
      exact ih ((hf x).congr hs)

/-- Loops with the same rounds for a key do the same to its slice. -/
theorem forM_congr (hf : ∀ x, LocalTo slice (owner x) (f x)) {l l' : List κ}
    (hl : l.filter (owner · = i) = l'.filter (owner · = i)) {s t : σ} (hs : slice s i = slice t i) :
    slice (l.forM f s).2 i = slice (l'.forM f t).2 i := by
  rw [forM_filter hf l hs, hl]
  exact (forM_filter hf l' rfl).symm

omit [DecidableEq ι] in
/-- What the rounds for a key keep, the loop keeps. -/
theorem forM_keeps (hf : ∀ x, LocalTo slice (owner x) (f x)) {P : τ → Prop} {l : List κ}
    (hround : ∀ x ∈ l, owner x = i → ∀ s, P (slice s i) → P (slice (f x s).2 i)) {s : σ}
    (hs : P (slice s i)) : P (slice (l.forM f s).2 i) := by
  induction l generalizing s with
  | nil => exact hs
  | cons x l ih =>
    change P (slice (l.forM f (f x s).2).2 i)
    apply ih fun y hy => hround y (List.mem_cons_of_mem x hy)
    rcases Classical.em (owner x = i) with hx | hx
    · exact hround x List.mem_cons_self hx s hs
    · rw [(hf x).frame s i (Ne.symm hx)]
      exact hs

end LocalTo
