-- SUMMARY: The ways through a Patricia tree that storing and erasing leave behind, and what lies on them, beside them and below them.
import TsEthereum.Base.PatriciaShape

/-!
# Ways

A way is a list of frames with the node at its end. Storing and erasing build the
nodes of one new way; every other subtree of the new tree was in the old one, or
is what a split has left of the node that was split.
-/

open List Function

namespace PatriciaTree

variable {r : Nat} {ν ρ : Type}

/-- `x` is one of the nodes of the way. -/
def OnWay (fs : List (Frame r ν ρ)) (t x : PatriciaTree r ν ρ) : Prop :=
  ∃ gs hs, fs = gs ++ hs ∧ x = plug gs t

/-- `x` is below `t`. -/
def Below (t x : PatriciaTree r ν ρ) : Prop :=
  match t with
  | .empty | .stub _ | .leaf _ _ => False
  | .ext _ c => Sub x c
  | .branch cs _ => ∃ i, Sub x (cs i)

variable {t x : PatriciaTree r ν ρ}

theorem onWay_nil : OnWay [] t x ↔ x = t := by
  constructor
  · rintro ⟨gs, hs, hnil, rfl⟩
    rw [(append_eq_nil_iff.mp hnil.symm).1]
    rfl
  · rintro rfl
    exact ⟨[], [], rfl, rfl⟩

theorem onWay_last (fs : List (Frame r ν ρ)) (t : PatriciaTree r ν ρ) : OnWay fs t t :=
  ⟨[], fs, rfl, rfl⟩

variable {f : Frame r ν ρ} {fs : List (Frame r ν ρ)}

theorem onWay_cons : OnWay (f :: fs) t x ↔ x = t ∨ OnWay fs (f.fill t) x := by
  constructor
  · rintro ⟨gs, hs, hfs, rfl⟩
    cases gs with
    | nil => exact .inl rfl
    | cons g gs =>
      obtain ⟨rfl, rfl⟩ := List.cons.inj hfs
      exact .inr ⟨gs, hs, rfl, rfl⟩
  · rintro (rfl | ⟨gs, hs, rfl, rfl⟩)
    · exact onWay_last _ _
    · exact ⟨f :: gs, hs, rfl, rfl⟩

theorem sub_plug (fs : List (Frame r ν ρ)) (t : PatriciaTree r ν ρ) : Sub t (plug fs t) := by
  induction fs generalizing t with
  | nil => exact .refl t
  | cons f fs ih =>
    have hfill : Sub t (f.fill t) := sub_fill_iff.mpr (.inr (.inl (.refl t)))
    exact hfill.trans (ih (f.fill t))

theorem OnWay.sub (h : OnWay fs t x) : Sub x (plug fs t) := by
  obtain ⟨gs, hs, rfl, rfl⟩ := h
  rw [plug_append]
  exact sub_plug hs (plug gs t)

/-- A search goes down from the node where it starts. -/
theorem exists_descend (t : PatriciaTree r ν ρ) (k : List (Fin r)) (fs : List (Frame r ν ρ)) :
    ∃ gs, (descend t k fs).1 = gs ++ fs ∧ plug gs (descend t k fs).2.1 = t := by
  have hstep {c u : PatriciaTree r ν ρ} {f : Frame r ν ρ} {fs ds : List (Frame r ν ρ)}
      (h : ∃ gs, ds = gs ++ f :: fs ∧ plug gs u = c) :
      ∃ gs, ds = gs ++ fs ∧ plug gs u = f.fill c := by
    obtain ⟨gs, hfs, hplug⟩ := h
    exact ⟨gs ++ [f], by rw [hfs, append_assoc, singleton_append],
      by rw [plug_append, hplug]; rfl⟩
  induction t generalizing k fs with
  | empty => exact ⟨[], rfl, rfl⟩
  | stub ref => exact ⟨[], rfl, rfl⟩
  | leaf p v => exact ⟨[], rfl, rfl⟩
  | ext p c ih =>
    simp only [descend]
    split
    · exact hstep (ih (k.drop p.length) (.ext p :: fs))
    · exact ⟨[], rfl, rfl⟩
  | branch cs v ih =>
    cases k with
    | nil => exact ⟨[], rfl, rfl⟩
    | cons i k =>
      simp only [descend]
      split
      · exact ⟨[], rfl, rfl⟩
      · have hrest := hstep (ih i k (.branch cs v i :: fs))
        simpa only [Frame.fill, update_eq_self] using hrest

theorem onWay_descend (t : PatriciaTree r ν ρ) (k : List (Fin r)) (fs : List (Frame r ν ρ)) :
    OnWay (descend t k fs).1 (descend t k fs).2.1 t := by
  obtain ⟨gs, hfs, hplug⟩ := exists_descend t k fs
  exact ⟨gs, fs, hfs, hplug.symm⟩

theorem sub_iff_below : Sub x t ↔ x = t ∨ Below t x := by
  cases t with
  | empty => simp [sub_empty_iff, Below]
  | stub ref => simp [sub_stub_iff, Below]
  | leaf p v => simp [sub_leaf_iff, Below]
  | ext p c => exact sub_ext_iff
  | branch cs v => exact sub_branch_iff

/-- A subtree lies on the way, beside it, or below its last node. -/
theorem sub_plug_cases : Sub x (plug fs t) ↔ OnWay fs t x ∨ (∃ f ∈ fs, f.Beside x) ∨ Below t x := by
  induction fs generalizing t with
  | nil => simp [onWay_nil, sub_iff_below]
  | cons f fs ih =>
    have hbelow : Below (f.fill t) x ↔ Sub x t ∨ f.Beside x := by
      cases f with
      | ext p => simp [Frame.fill, Below, Frame.Beside]
      | branch cs v i =>
        constructor
        · rintro ⟨j, h⟩
          by_cases hj : j = i
          · subst hj
            rw [update_self] at h
            exact .inl h
          · rw [update_of_ne hj] at h
            exact .inr ⟨j, hj, h⟩
        · rintro (h | ⟨j, hj, h⟩)
          · exact ⟨i, by rwa [update_self]⟩
          · exact ⟨j, by rwa [update_of_ne hj]⟩
    rw [plug_cons, ih, hbelow, onWay_cons, sub_iff_below]
    simp only [mem_cons, exists_eq_or_imp]
    constructor
    · rintro (h | h | (h | h) | h)
      · exact .inl (.inr h)
      · exact .inr (.inl (.inr h))
      · exact .inl (.inl h)
      · exact .inr (.inr h)
      · exact .inr (.inl (.inl h))
    · rintro ((h | h) | (h | h) | h)
      · exact .inr (.inr (.inl (.inl h)))
      · exact .inl h
      · exact .inr (.inr (.inr h))
      · exact .inr (.inl h)
      · exact .inr (.inr (.inl (.inr h)))

/-! ## The way to a value that is stored -/

/-- The way through a branch to the value that is stored in it. -/
def putWay (k : List (Fin r)) (v : ν) (t : PatriciaTree r ν ρ) :
    List (Frame r ν ρ) × PatriciaTree r ν ρ :=
  match t, k with
  | .branch cs _, [] => ([], .branch cs (some v))
  | .branch cs w, i :: k => ([.branch cs w i], .leaf k v)
  | t, _ => ([], t)

/-- The frame of an extension by a path that may be empty. -/
def extFrames (q : List (Fin r)) : List (Frame r ν ρ) :=
  if q = [] then [] else [.ext q]

/-- The way to the value `v` that is stored where `k` forks off the path `p` of the node `t`. -/
def forkWay (t : PatriciaTree r ν ρ) (p k : List (Fin r)) (v : ν) :
    List (Frame r ν ρ) × PatriciaTree r ν ρ :=
  let (common, old, new) := fork p k
  let (gs, u) := putWay new v (forkBranch t old)
  (gs ++ extFrames common, u)

/-- The way to the value `v` that is stored below `fs` where `k` leaves the node `t`. -/
def graftWay (fs : List (Frame r ν ρ)) (t : PatriciaTree r ν ρ) (k : List (Fin r)) (v : ν) :
    List (Frame r ν ρ) × PatriciaTree r ν ρ :=
  match t with
  | .branch cs w =>
    let (gs, u) := putWay k v (.branch cs w)
    (gs ++ fs, u)
  | .leaf p w =>
    if p = k then (fs, .leaf p v)
    else
      let (gs, u) := forkWay (.leaf p w) p k v
      (gs ++ fs, u)
  | .ext p c =>
    let (gs, u) := forkWay (.ext p c) p k v
    (gs ++ fs, u)
  | .empty | .stub _ => (fs, .leaf k v)

theorem plug_putWay (k : List (Fin r)) (v : ν) (t : PatriciaTree r ν ρ) :
    plug (putWay k v t).1 (putWay k v t).2 = putInBranch k v t := by
  cases t with
  | branch cs w => cases k <;> rfl
  | empty => rfl
  | stub ref => rfl
  | leaf p w => rfl
  | ext p c => rfl

theorem plug_extFrames (q : List (Fin r)) (t : PatriciaTree r ν ρ) :
    plug (extFrames q) t = extend q t := by
  unfold extFrames extend
  split <;> rfl

theorem keyOf_extFrames (q : List (Fin r)) : keyOf (extFrames q : List (Frame r ν ρ)) = q := by
  unfold extFrames
  split
  · rename_i hnil
    exact hnil.symm
  · rfl

theorem plug_graftWay (fs : List (Frame r ν ρ)) (t : PatriciaTree r ν ρ) (k : List (Fin r))
    (v : ν) : plug (graftWay fs t k v).1 (graftWay fs t k v).2 = plug fs (graft t k v) := by
  cases t with
  | empty => rfl
  | stub ref => rfl
  | branch cs w => simp only [graftWay, plug_append, plug_putWay, graft]
  | leaf p w =>
    simp only [graftWay, graft]
    split
    · rfl
    · simp only [forkWay, plug_append, plug_putWay, plug_extFrames]
  | ext p c => simp only [graftWay, graft, forkWay, plug_append, plug_putWay, plug_extFrames]

/-! ## The way to what is left of a branch -/

/-- The way to the one child `t` of a branch that takes its place. -/
def absorbWay (fs : List (Frame r ν ρ)) (j : Fin r) (t : PatriciaTree r ν ρ) :
    List (Frame r ν ρ) × PatriciaTree r ν ρ :=
  match fs, t with
  | .ext p :: fs, .branch cs v => (.ext (p ++ [j]) :: fs, .branch cs v)
  | .ext p :: fs, t => (fs, prepend (p ++ [j]) t)
  | fs, .branch cs v => (.ext [j] :: fs, .branch cs v)
  | fs, t => (fs, prepend [j] t)

def closeUpWay (fs : List (Frame r ν ρ)) (cs : Fin r → PatriciaTree r ν ρ) (v : Option ν) :
    List (Frame r ν ρ) × PatriciaTree r ν ρ :=
  match children cs with
  | [j] => absorbWay fs j (cs j)
  | _ => (fs, .branch cs v)

/-- The way that an erasure leaves behind, where it leaves anything. -/
def eraseWay (fs : List (Frame r ν ρ)) (last : PatriciaTree r ν ρ) :
    List (Frame r ν ρ) × PatriciaTree r ν ρ :=
  match fs, last with
  | [], _ => ([], .empty)
  | fs, .branch cs v => closeUpWay fs cs v
  | .branch cs v i :: fs, _ => closeUpWay fs (Function.update cs i .empty) v
  | fs, last => (fs, last)

theorem plug_absorbWay (fs : List (Frame r ν ρ)) (j : Fin r) (t : PatriciaTree r ν ρ) :
    plug (absorbWay fs j t).1 (absorbWay fs j t).2 = absorb fs j t := by
  match fs with
  | [] => cases t <;> rfl
  | .ext p :: fs => cases t <;> rfl
  | .branch cs v i :: fs => cases t <;> rfl

/-- The two ways to close up a branch. -/
theorem closeUpWay_cases (fs : List (Frame r ν ρ)) (cs : Fin r → PatriciaTree r ν ρ) (v : Option ν) :
    (∃ j, children cs = [j] ∧ closeUp fs cs v = absorb fs j (cs j) ∧
      closeUpWay fs cs v = absorbWay fs j (cs j)) ∨
    (closeUp fs cs v = plug fs (.branch cs v) ∧ closeUpWay fs cs v = (fs, .branch cs v)) := by
  unfold closeUpWay closeUp
  rcases children cs with _ | ⟨j, _ | ⟨i, rest⟩⟩
  · exact .inr ⟨rfl, rfl⟩
  · exact .inl ⟨j, rfl, rfl, rfl⟩
  · exact .inr ⟨rfl, rfl⟩

theorem plug_closeUpWay (fs : List (Frame r ν ρ)) (cs : Fin r → PatriciaTree r ν ρ) (v : Option ν) :
    plug (closeUpWay fs cs v).1 (closeUpWay fs cs v).2 = closeUp fs cs v := by
  rcases closeUpWay_cases fs cs v with ⟨j, -, hclose, hway⟩ | ⟨hclose, hway⟩
  · rw [hclose, hway]
    exact plug_absorbWay fs j (cs j)
  · rw [hclose, hway]

/-! ## What the new ways leave alone -/

/-- The path of a leaf or an extension. -/
def path : PatriciaTree r ν ρ → List (Fin r)
  | .leaf p _ | .ext p _ => p
  | .empty | .stub _ | .branch _ _ => []

/-- `x` is what a split at the key `k` has left of the leaf or extension `t`. -/
def SplitOff (t : PatriciaTree r ν ρ) (k : List (Fin r)) (x : PatriciaTree r ν ρ) : Prop :=
  t.isBranch = false ∧ ∃ j q, (fork t.path k).2.1 = j :: q ∧ x = t.withPath q

variable {q : List (Fin r)}

theorem Below.of_withPath (h : Below (t.withPath q) x) : Below t x := by
  cases t with
  | empty => exact h
  | stub ref => exact h
  | leaf p v => exact h
  | ext p c =>
    have hx : Below (extend q c) x := h
    unfold extend at hx
    split at hx
    · exact sub_iff_below.mpr (.inr hx)
    · exact hx
  | branch cs v => exact h

theorem Below.of_prepend (hq : t.isBranch = false) (h : Below (prepend q t) x) :
    Below t x ∨ x = .empty ∨ ∃ ref, x = .stub ref := by
  cases t with
  | empty => exact .inr (.inl (sub_empty_iff.mp h))
  | stub ref => exact .inr (.inr ⟨ref, sub_stub_iff.mp h⟩)
  | leaf p v => exact .inl h
  | ext p c => exact .inl h
  | branch cs v => cases hq

variable {cs : Fin r → PatriciaTree r ν ρ}

/-- The children of the branch at a fork. -/
theorem sub_forkBranch {w : Option ν} (h : forkBranch t q = .branch cs w) {i : Fin r}
    (hx : Sub x (cs i)) : x = .empty ∨ Below t x ∨ ∃ j q', q = j :: q' ∧ x = t.withPath q' := by
  cases q with
  | nil =>
    obtain ⟨rfl, -⟩ := PatriciaTree.branch.inj h
    exact .inl (sub_empty_iff.mp hx)
  | cons j q =>
    obtain ⟨rfl, -⟩ := PatriciaTree.branch.inj h
    by_cases hi : i = j
    · subst hi
      rw [update_self] at hx
      rcases sub_iff_below.mp hx with rfl | hbelow
      · exact .inr (.inr ⟨i, q, rfl, rfl⟩)
      · exact .inr (.inl hbelow.of_withPath)
    · rw [update_of_ne hi] at hx
      exact .inl (sub_empty_iff.mp hx)

variable {k : List (Fin r)} {v : ν}

/-- Beside and below the way to a value that is stored in a branch are the branch's children. -/
theorem sub_putWay {w : Option ν}
    (h : (∃ f ∈ (putWay k v (.branch cs w)).1, f.Beside x) ∨ Below (putWay k v (.branch cs w)).2 x) :
     ∃ i, Sub x (cs i) := by
  cases k with
  | nil =>
    rcases h with ⟨f, hf, -⟩ | h
    · exact absurd hf not_mem_nil
    · exact h
  | cons i k =>
    rcases h with ⟨f, hf, h⟩ | h
    · obtain rfl := mem_singleton.mp hf
      obtain ⟨j, -, hj⟩ := h
      exact ⟨j, hj⟩
    · exact h.elim

theorem not_beside_extFrames (hf : f ∈ extFrames q) : ¬ f.Beside x := by
  unfold extFrames at hf
  split at hf
  · exact absurd hf not_mem_nil
  · rw [mem_singleton.mp hf]
    exact id

theorem sub_forkWay (ht : t.isBranch = false)
    (h : (∃ f ∈ (forkWay t t.path k v).1, f.Beside x) ∨ Below (forkWay t t.path k v).2 x) :
    x = .empty ∨ Below t x ∨ SplitOff t k x := by
  unfold SplitOff
  simp only [forkWay, mem_append] at h
  generalize fork t.path k = f at h ⊢
  obtain ⟨common, old, new⟩ := f
  obtain ⟨cs, w, hcs⟩ := forkBranch_eq_branch t old
  simp only [hcs] at h
  have hput : ∃ i, Sub x (cs i) := by
    rcases h with ⟨f, hf | hf, hx⟩ | hx
    · exact sub_putWay (.inl ⟨f, hf, hx⟩)
    · exact absurd hx (not_beside_extFrames hf)
    · exact sub_putWay (.inr hx)
  obtain ⟨i, hi⟩ := hput
  rcases sub_forkBranch hcs hi with hx | hx | ⟨j, q, hq, hx⟩
  · exact .inl hx
  · exact .inr (.inl hx)
  · exact .inr (.inr ⟨ht, j, q, hq, hx⟩)

/-- What storing a value does not build anew was in the old tree, or is split off. -/
theorem sub_graftWay (h : Sub x (plug fs (graft t k v))) :
    OnWay (graftWay fs t k v).1 (graftWay fs t k v).2 x ∨ (∃ f ∈ fs, f.Beside x) ∨
      x = .empty ∨ Below t x ∨ SplitOff t k x := by
  rw [← plug_graftWay, sub_plug_cases] at h
  rcases h with h | h
  · exact .inl h
  · refine .inr ?_
    cases t with
    | empty =>
      rcases h with h | h
      · exact .inl h
      · exact h.elim
    | stub ref =>
      rcases h with h | h
      · exact .inl h
      · exact h.elim
    | branch cs w =>
      simp only [graftWay, mem_append] at h
      rcases h with ⟨f, hf | hf, hx⟩ | hx
      · exact .inr (.inr (.inl (sub_putWay (.inl ⟨f, hf, hx⟩))))
      · exact .inl ⟨f, hf, hx⟩
      · exact .inr (.inr (.inl (sub_putWay (.inr hx))))
    | leaf p w =>
      by_cases hp : p = k
      · simp only [graftWay, hp, if_true] at h
        rcases h with h | h
        · exact .inl h
        · exact h.elim
      · simp only [graftWay, hp, if_false, mem_append] at h
        rcases h with ⟨f, hf | hf, hx⟩ | hx
        · exact .inr (sub_forkWay (t := .leaf p w) rfl (.inl ⟨f, hf, hx⟩))
        · exact .inl ⟨f, hf, hx⟩
        · exact .inr (sub_forkWay (t := .leaf p w) rfl (.inr hx))
    | ext p c =>
      simp only [graftWay, mem_append] at h
      rcases h with ⟨f, hf | hf, hx⟩ | hx
      · exact .inr (sub_forkWay (t := .ext p c) rfl (.inl ⟨f, hf, hx⟩))
      · exact .inl ⟨f, hf, hx⟩
      · exact .inr (sub_forkWay (t := .ext p c) rfl (.inr hx))

/-- A child that is a branch stays the last node of its way. -/
theorem absorbWay_of_isBranch (h : t.isBranch = true) (fs : List (Frame r ν ρ)) (j : Fin r) :
    (absorbWay fs j t).2 = t := by
  cases t with
  | branch cs v =>
    match fs with
    | [] => rfl
    | .ext p :: fs => rfl
    | .branch ds w i :: fs => rfl
  | empty => cases h
  | stub ref => cases h
  | leaf p v => cases h
  | ext p c => cases h

/-- What a child that takes the place of its branch leaves alone. -/
theorem sub_absorbWay {j : Fin r} (h : Sub x (absorb fs j t)) :
    OnWay (absorbWay fs j t).1 (absorbWay fs j t).2 x ∨ (∃ f ∈ fs, f.Beside x) ∨
      x = .empty ∨ (∃ ref, x = .stub ref) ∨ Below t x := by
  rw [← plug_absorbWay, sub_plug_cases] at h
  rcases h with h | h | h
  · exact .inl h
  · refine .inr (.inl ?_)
    obtain ⟨f, hf, hx⟩ := h
    match fs with
    | [] =>
      cases t with
      | branch cs v =>
        rw [mem_singleton.mp hf] at hx
        exact hx.elim
      | empty => exact absurd hf not_mem_nil
      | stub ref => exact absurd hf not_mem_nil
      | leaf p v => exact absurd hf not_mem_nil
      | ext p c => exact absurd hf not_mem_nil
    | .ext p :: fs =>
      cases t with
      | branch cs v =>
        rcases mem_cons.mp hf with rfl | hf
        · exact hx.elim
        · exact ⟨f, mem_cons_of_mem _ hf, hx⟩
      | empty => exact ⟨f, mem_cons_of_mem _ hf, hx⟩
      | stub ref => exact ⟨f, mem_cons_of_mem _ hf, hx⟩
      | leaf p v => exact ⟨f, mem_cons_of_mem _ hf, hx⟩
      | ext p c => exact ⟨f, mem_cons_of_mem _ hf, hx⟩
    | .branch ds w i :: fs =>
      cases t with
      | branch cs v =>
        rcases mem_cons.mp hf with rfl | hf
        · exact hx.elim
        · exact ⟨f, hf, hx⟩
      | empty => exact ⟨f, hf, hx⟩
      | stub ref => exact ⟨f, hf, hx⟩
      | leaf p v => exact ⟨f, hf, hx⟩
      | ext p c => exact ⟨f, hf, hx⟩
  · refine .inr (.inr ?_)
    cases ht : t.isBranch with
    | true =>
      rw [absorbWay_of_isBranch ht] at h
      exact .inr (.inr h)
    | false =>
      have hlast : ∃ q, (absorbWay fs j t).2 = prepend q t := by
        match fs with
        | [] => cases t <;> first | exact ⟨[j], rfl⟩ | cases ht
        | .ext p :: fs => cases t <;> first | exact ⟨p ++ [j], rfl⟩ | cases ht
        | .branch ds w i :: fs => cases t <;> first | exact ⟨[j], rfl⟩ | cases ht
      obtain ⟨q, hq⟩ := hlast
      rw [hq] at h
      rcases Below.of_prepend ht h with h | h | h
      · exact .inr (.inr h)
      · exact .inl h
      · exact .inr (.inl h)

/-- What closing up a branch leaves alone. -/
theorem sub_closeUpWay {v : Option ν} (h : Sub x (closeUp fs cs v)) :
    OnWay (closeUpWay fs cs v).1 (closeUpWay fs cs v).2 x ∨ (∃ f ∈ fs, f.Beside x) ∨
      x = .empty ∨ (∃ ref, x = .stub ref) ∨ ∃ i, Sub x (cs i) := by
  rcases closeUpWay_cases fs cs v with ⟨j, -, hclose, hway⟩ | ⟨hclose, hway⟩
  · rw [hclose] at h
    rw [hway]
    rcases sub_absorbWay h with h | h | h | h | h
    · exact .inl h
    · exact .inr (.inl h)
    · exact .inr (.inr (.inl h))
    · exact .inr (.inr (.inr (.inl h)))
    · exact .inr (.inr (.inr (.inr ⟨j, sub_iff_below.mpr (.inr h)⟩)))
  · rw [hclose] at h
    rw [hway]
    rcases sub_plug_cases.mp h with h | h | h
    · exact .inl h
    · exact .inr (.inl h)
    · exact .inr (.inr (.inr (.inr h)))

theorem plug_eraseWay (fs : List (Frame r ν ρ)) (last : PatriciaTree r ν ρ) :
    plug (eraseWay fs last).1 (eraseWay fs last).2 = erase fs last := by
  match fs, last with
  | [], _ => rfl
  | .ext p :: fs, .branch cs v => exact plug_closeUpWay (.ext p :: fs) cs v
  | .branch ds w i :: fs, .branch cs v => exact plug_closeUpWay (.branch ds w i :: fs) cs v
  | .branch ds w i :: fs, .empty => exact plug_closeUpWay fs _ w
  | .branch ds w i :: fs, .stub ref => exact plug_closeUpWay fs _ w
  | .branch ds w i :: fs, .leaf p v => exact plug_closeUpWay fs _ w
  | .branch ds w i :: fs, .ext p c => exact plug_closeUpWay fs _ w
  | .ext p :: fs, .empty => rfl
  | .ext p :: fs, .stub ref => rfl
  | .ext p :: fs, .leaf q v => rfl
  | .ext p :: fs, .ext q c => rfl

theorem Sub.of_beside (h : ∃ f ∈ fs, f.Beside x) : Sub x (plug fs t) :=
  sub_plug_cases.mpr (.inr (.inl h))

/-- The nodes of an erasure's result that are not on its way were in the old tree. -/
theorem sub_eraseWay {last : PatriciaTree r ν ρ} (h : Sub x (erase fs last)) :
    OnWay (eraseWay fs last).1 (eraseWay fs last).2 x ∨ x = .empty ∨ (∃ ref, x = .stub ref) ∨
      Sub x (plug fs last) := by
  have hbranch (f : Frame r ν ρ) (fs : List (Frame r ν ρ)) (cs : Fin r → PatriciaTree r ν ρ)
      (v : Option ν) (h : Sub x (closeUp (f :: fs) cs v)) :
      OnWay (closeUpWay (f :: fs) cs v).1 (closeUpWay (f :: fs) cs v).2 x ∨ x = .empty ∨
        (∃ ref, x = .stub ref) ∨ Sub x (plug (f :: fs) (.branch cs v)) := by
    rcases sub_closeUpWay h with h | h | h | h | ⟨i, h⟩
    · exact .inl h
    · exact .inr (.inr (.inr (Sub.of_beside h)))
    · exact .inr (.inl h)
    · exact .inr (.inr (.inl h))
    · exact .inr (.inr (.inr ((Sub.branch v i h).trans (sub_plug _ _))))
  have hchild (fs : List (Frame r ν ρ)) (cs : Fin r → PatriciaTree r ν ρ) (v : Option ν) (i : Fin r)
      (last : PatriciaTree r ν ρ) (h : Sub x (closeUp fs (update cs i .empty) v)) :
      OnWay (closeUpWay fs (update cs i .empty) v).1
          (closeUpWay fs (update cs i .empty) v).2 x ∨ x = .empty ∨
        (∃ ref, x = .stub ref) ∨ Sub x (plug (.branch cs v i :: fs) last) := by
    rcases sub_closeUpWay h with h | ⟨f, hf, hx⟩ | h | h | ⟨j, h⟩
    · exact .inl h
    · exact .inr (.inr (.inr (Sub.of_beside ⟨f, mem_cons_of_mem _ hf, hx⟩)))
    · exact .inr (.inl h)
    · exact .inr (.inr (.inl h))
    · by_cases hj : j = i
      · subst hj
        rw [update_self] at h
        exact .inr (.inl (sub_empty_iff.mp h))
      · rw [update_of_ne hj] at h
        exact .inr (.inr (.inr (Sub.of_beside ⟨_, mem_cons_self, ⟨j, hj, h⟩⟩)))
  match fs, last with
  | [], _ => exact .inr (.inl (sub_empty_iff.mp h))
  | .ext p :: fs, .branch cs v => exact hbranch (.ext p) fs cs v h
  | .branch ds w i :: fs, .branch cs v => exact hbranch (.branch ds w i) fs cs v h
  | .branch ds w i :: fs, .empty => exact hchild fs ds w i .empty h
  | .branch ds w i :: fs, .stub ref => exact hchild fs ds w i (.stub ref) h
  | .branch ds w i :: fs, .leaf p v => exact hchild fs ds w i (.leaf p v) h
  | .branch ds w i :: fs, .ext p c => exact hchild fs ds w i (.ext p c) h
  | .ext p :: fs, .empty => exact .inr (.inr (.inr h))
  | .ext p :: fs, .stub ref => exact .inr (.inr (.inr h))
  | .ext p :: fs, .leaf q v => exact .inr (.inr (.inr h))
  | .ext p :: fs, .ext q c => exact .inr (.inr (.inr h))

/-! ## Keys along a way -/

theorem keyOf_putWay (cs : Fin r → PatriciaTree r ν ρ) (w : Option ν) (k : List (Fin r)) (v : ν) :
    keyOf (putWay k v (.branch cs w)).1 ++ path (putWay k v (.branch cs w)).2 = k := by
  cases k <;> rfl

theorem keyOf_forkWay (t : PatriciaTree r ν ρ) (p k : List (Fin r)) (v : ν) :
    keyOf (forkWay t p k v).1 ++ path (forkWay t p k v).2 = k := by
  obtain ⟨-, hkey⟩ := fork_append p k
  simp only [forkWay]
  generalize fork p k = f at hkey ⊢
  obtain ⟨common, old, new⟩ := f
  obtain ⟨cs, w, hcs⟩ := forkBranch_eq_branch t old
  simp only [hcs]
  rw [keyOf_append, keyOf_extFrames, append_assoc, keyOf_putWay, hkey]

theorem keyOf_graftWay (fs : List (Frame r ν ρ)) (t : PatriciaTree r ν ρ) (k : List (Fin r))
    (v : ν) : keyOf (graftWay fs t k v).1 ++ path (graftWay fs t k v).2 = keyOf fs ++ k := by
  cases t with
  | empty => rfl
  | stub ref => rfl
  | branch cs w =>
    simp only [graftWay]
    rw [keyOf_append, append_assoc, keyOf_putWay]
  | leaf p w =>
    simp only [graftWay]
    split
    · rename_i hp
      rw [hp]
      rfl
    · rw [keyOf_append, append_assoc, keyOf_forkWay]
  | ext p c =>
    simp only [graftWay]
    rw [keyOf_append, append_assoc, keyOf_forkWay]

/-- A node of a way holds the rest of the key as the whole tree holds the key. -/
theorem OnWay.at_key {last : PatriciaTree r ν ρ} (h : OnWay fs last x) (rest : List (Fin r)) :
    ∃ a c, keyOf fs ++ rest = a ++ (c ++ rest) ∧
      (∀ y, lookup x y = lookup (plug fs last) (a ++ y)) := by
  obtain ⟨gs, hs, rfl, rfl⟩ := h
  refine ⟨keyOf hs, keyOf gs, by rw [keyOf_append, append_assoc], fun y => ?_⟩
  rw [plug_append, lookup_plug]

/-- The nodes that the child of a closed branch leaves behind look up what was looked up where
they are, but for the child itself where it is a branch. -/
theorem onWay_absorbWay {j : Fin r} (h : OnWay (absorbWay fs j t).1 (absorbWay fs j t).2 x) :
    (t.isBranch = true ∧ x = t) ∨
      ∃ gs hs, fs = gs ++ hs ∧ ∀ k, lookup x k = lookup (plug gs (prepend [j] t)) k := by
  have hplain {y : PatriciaTree r ν ρ} (fs : List (Frame r ν ρ)) (hy : y = prepend [j] t)
      (h : OnWay fs y x) : ∃ gs hs, fs = gs ++ hs ∧
        ∀ k, lookup x k = lookup (plug gs (prepend [j] t)) k := by
    obtain ⟨gs, hs, hfs, rfl⟩ := h
    exact ⟨gs, hs, hfs, fun k => by rw [hy]⟩
  have hlong {y : PatriciaTree r ν ρ} {p : List (Fin r)} (fs : List (Frame r ν ρ))
      (hy : y = prepend (p ++ [j]) t) (h : OnWay fs y x) : ∃ gs hs, .ext p :: fs = gs ++ hs ∧
        ∀ k, lookup x k = lookup (plug gs (prepend [j] t)) k := by
    obtain ⟨gs, hs, rfl, rfl⟩ := h
    refine ⟨.ext p :: gs, hs, rfl, fun k => ?_⟩
    rw [hy]
    exact lookup_plug_congr (g := fun _ z => z) gs (lookup_prepend_concat p j t)
      (fun _ _ _ => rfl) k
  cases ht : t.isBranch with
  | true =>
    cases t with
    | branch cs v =>
      match fs with
      | [] =>
        rcases onWay_cons.mp h with h | h
        · exact .inl ⟨rfl, h⟩
        · exact .inr (hplain [] rfl h)
      | .ext p :: fs =>
        rcases onWay_cons.mp h with h | h
        · exact .inl ⟨rfl, h⟩
        · exact .inr (hlong fs rfl h)
      | .branch ds w i :: fs =>
        rcases onWay_cons.mp h with h | h
        · exact .inl ⟨rfl, h⟩
        · exact .inr (hplain _ rfl h)
    | empty => cases ht
    | stub ref => cases ht
    | leaf p v => cases ht
    | ext p c => cases ht
  | false =>
    refine .inr ?_
    match fs with
    | [] => cases t <;> first | exact hplain [] rfl h | cases ht
    | .ext p :: fs => cases t <;> first | exact hlong fs rfl h | cases ht
    | .branch ds w i :: fs => cases t <;> first | exact hplain _ rfl h | cases ht

/-- The nodes that closing up a branch leaves behind look up what the whole looks up where they
are, but for the one child where it is a branch. -/
theorem onWay_closeUpWay {v : Option ν} (h : OnWay (closeUpWay fs cs v).1 (closeUpWay fs cs v).2 x) :
     (∃ j, children cs = [j] ∧ (cs j).isBranch = true ∧ x = cs j) ∨
      ∃ gs hs, fs = gs ++ hs ∧ ∀ k, lookup x k = lookup (closeUp fs cs v) (keyOf hs ++ k) := by
  rcases closeUpWay_cases fs cs v with ⟨j, hone, hclose, hway⟩ | ⟨hclose, hway⟩
  · rw [hway] at h
    rcases onWay_absorbWay h with ⟨hbranch, hx⟩ | ⟨gs, hs, rfl, hlook⟩
    · exact .inl ⟨j, hone, hbranch, hx⟩
    · refine .inr ⟨gs, hs, rfl, fun k => ?_⟩
      rw [hclose, hlook, lookup_absorb, plug_append, lookup_plug]
  · rw [hway] at h
    obtain ⟨gs, hs, rfl, rfl⟩ := h
    refine .inr ⟨gs, hs, rfl, fun k => ?_⟩
    rw [hclose, plug_append, lookup_plug]

/-! ## Enumerating subtrees -/

/-- Trees can be compared child by child. -/
instance decEq [DecidableEq ν] [DecidableEq ρ] : DecidableEq (PatriciaTree r ν ρ)
  | .empty, .empty => .isTrue rfl
  | .stub a, .stub b => decidable_of_iff (a = b) (by simp)
  | .leaf p v, .leaf q w => decidable_of_iff (p = q ∧ v = w) (by simp)
  | .ext p c, .ext q d =>
    have : Decidable (c = d) := decEq c d
    decidable_of_iff (p = q ∧ c = d) (by simp)
  | .branch cs v, .branch ds w =>
    have (i : Fin r) : Decidable (cs i = ds i) := decEq (cs i) (ds i)
    decidable_of_iff ((∀ i, cs i = ds i) ∧ v = w) (by simp [funext_iff])
  | .empty, .stub _ | .empty, .leaf _ _ | .empty, .ext _ _ | .empty, .branch _ _
  | .stub _, .empty | .stub _, .leaf _ _ | .stub _, .ext _ _ | .stub _, .branch _ _
  | .leaf _ _, .empty | .leaf _ _, .stub _ | .leaf _ _, .ext _ _ | .leaf _ _, .branch _ _
  | .ext _ _, .empty | .ext _ _, .stub _ | .ext _ _, .leaf _ _ | .ext _ _, .branch _ _
  | .branch _ _, .empty | .branch _ _, .stub _ | .branch _ _, .leaf _ _ | .branch _ _, .ext _ _ =>
    .isFalse nofun

def subtrees : PatriciaTree r ν ρ → List (PatriciaTree r ν ρ)
  | .ext p c => .ext p c :: subtrees c
  | .branch cs v => .branch cs v :: (List.finRange r).flatMap (fun i => subtrees (cs i))
  | .empty => [.empty]
  | .stub ref => [.stub ref]
  | .leaf p v => [.leaf p v]

theorem mem_subtrees : x ∈ subtrees t ↔ Sub x t := by
  induction t with
  | empty => simp [subtrees, sub_empty_iff]
  | stub ref => simp [subtrees, sub_stub_iff]
  | leaf p v => simp [subtrees, sub_leaf_iff]
  | ext p c ih => simp [subtrees, sub_ext_iff, ih]
  | branch cs v ih => simp [subtrees, sub_branch_iff, ih]

def Frame.besides : Frame r ν ρ → List (PatriciaTree r ν ρ)
  | .ext _ => []
  | .branch cs _ i => ((List.finRange r).filter (· ≠ i)).flatMap (fun j => subtrees (cs j))

theorem Frame.mem_besides : x ∈ f.besides ↔ f.Beside x := by
  cases f with
  | ext p => simp [besides, Beside]
  | branch cs v i => simp [besides, Beside, mem_subtrees]

/-- The nodes of a way, from its end. -/
def wayTrees : List (Frame r ν ρ) → PatriciaTree r ν ρ → List (PatriciaTree r ν ρ)
  | [], t => [t]
  | f :: fs, t => t :: wayTrees fs (f.fill t)

theorem mem_wayTrees : x ∈ wayTrees fs t ↔ OnWay fs t x := by
  induction fs generalizing t with
  | nil => simp [wayTrees, onWay_nil]
  | cons f fs ih => simp [wayTrees, onWay_cons, ih]

end PatriciaTree
