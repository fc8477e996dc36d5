-- SUMMARY: Patricia trees over an alphabet of r digits: lookup, the zipper to a key, grafting a value in and closing up a branch.
import Mathlib.Logic.Function.Basic
import Mathlib.Data.List.FinRange

/-!
# Patricia trees

Trees that share the prefixes of their keys, with stubs for parts that are not
known. A tree is taken apart at a key into the frames above a node and the node
where the key leaves the tree; every change is made there, and what is looked up
elsewhere does not depend on it.
-/

open List Function

inductive PatriciaTree (r : Nat) (ν ρ : Type) where
  | empty
  | stub (ref : ρ)
  | leaf (path : List (Fin r)) (value : ν)
  | ext (path : List (Fin r)) (child : PatriciaTree r ν ρ)
  | branch (children : Fin r → PatriciaTree r ν ρ) (value : Option ν)

namespace PatriciaTree

variable {r : Nat} {ν ρ : Type}

local instance : Inhabited (PatriciaTree r ν ρ) := ⟨.empty⟩

def isEmpty : PatriciaTree r ν ρ → Bool
  | .empty => true
  | .stub _ | .leaf _ _ | .ext _ _ | .branch _ _ => false

def isBranch : PatriciaTree r ν ρ → Bool
  | .branch _ _ => true
  | .empty | .stub _ | .leaf _ _ | .ext _ _ => false

variable {t : PatriciaTree r ν ρ}

theorem isEmpty_iff : t.isEmpty = true ↔ t = .empty := by
  cases t <;> simp [isEmpty]

theorem isEmpty_eq_false : t.isEmpty = false ↔ t ≠ .empty := by
  cases t <;> simp [isEmpty]

/-! ## Lookup -/

def lookup : PatriciaTree r ν ρ → List (Fin r) → Option ν
  | .empty, _ | .stub _, _ => none
  | .leaf p v, k => if p = k then some v else none
  | .ext p c, k => if p <+: k then lookup c (k.drop p.length) else none
  | .branch _ v, [] => v
  | .branch cs _, i :: k => lookup (cs i) k

/-- The search for the key does not end at a stub. -/
def Known : PatriciaTree r ν ρ → List (Fin r) → Prop
  | .stub _, _ => False
  | .ext p c, k => p <+: k → Known c (k.drop p.length)
  | .branch cs _, i :: k => Known (cs i) k
  | .empty, _ | .leaf _ _, _ | .branch _ _, [] => True

@[simp] theorem lookup_empty (k : List (Fin r)) : lookup (.empty : PatriciaTree r ν ρ) k = none := by
  cases k <;> rfl

@[simp] theorem lookup_leaf (p : List (Fin r)) (v : ν) (k : List (Fin r)) :
    lookup (.leaf p v : PatriciaTree r ν ρ) k = if p = k then some v else none := by
  cases k <;> rfl

@[simp] theorem lookup_ext (p : List (Fin r)) (c : PatriciaTree r ν ρ) (k : List (Fin r)) :
    lookup (.ext p c) k = if p <+: k then lookup c (k.drop p.length) else none := by
  cases k <;> rfl

@[simp] theorem lookup_branch_nil (cs : Fin r → PatriciaTree r ν ρ) (v : Option ν) :
    lookup (.branch cs v) [] = v := rfl

@[simp] theorem lookup_branch_cons (cs : Fin r → PatriciaTree r ν ρ) (v : Option ν) (i : Fin r)
    (k : List (Fin r)) : lookup (.branch cs v) (i :: k) = lookup (cs i) k := rfl

theorem lookup_ext_append (p : List (Fin r)) (c : PatriciaTree r ν ρ) (k : List (Fin r)) :
    lookup (.ext p c) (p ++ k) = lookup c k := by
  rw [lookup_ext, if_pos (prefix_append p k), drop_left]

/-- An extension by a path that may be empty. -/
def extend (q : List (Fin r)) (t : PatriciaTree r ν ρ) : PatriciaTree r ν ρ :=
  if q = [] then t else .ext q t

/-- `q` put in front of the path of a node. -/
def prepend (q : List (Fin r)) : PatriciaTree r ν ρ → PatriciaTree r ν ρ
  | .leaf p v => .leaf (q ++ p) v
  | .ext p c => .ext (q ++ p) c
  | t => .ext q t

theorem lookup_extend (q : List (Fin r)) (t : PatriciaTree r ν ρ) (k : List (Fin r)) :
    lookup (extend q t) k = if q <+: k then lookup t (k.drop q.length) else none := by
  unfold extend
  split
  · rename_i hnil
    subst hnil
    simp
  · rw [lookup_ext]

variable {q p k : List (Fin r)}

theorem append_prefix_iff :
    q ++ p <+: k ↔ q <+: k ∧ p <+: k.drop q.length := by
  constructor
  · rintro ⟨rest, rfl⟩
    refine ⟨⟨p ++ rest, by simp⟩, ?_⟩
    rw [append_assoc, drop_left]
    exact prefix_append p rest
  · rintro ⟨⟨k', rfl⟩, hp⟩
    rw [drop_left] at hp
    exact (prefix_append_right_inj q).mpr hp

theorem append_eq_iff : q ++ p = k ↔ q <+: k ∧ p = k.drop q.length := by
  constructor
  · rintro rfl
    exact ⟨prefix_append q p, (drop_left).symm⟩
  · rintro ⟨⟨k', rfl⟩, hp⟩
    rw [hp, drop_left]

theorem lookup_prepend (q : List (Fin r)) (t : PatriciaTree r ν ρ) (k : List (Fin r)) :
    lookup (prepend q t) k = if q <+: k then lookup t (k.drop q.length) else none := by
  cases t with
  | leaf p v =>
    simp only [prepend, lookup_leaf, append_eq_iff]
    by_cases hq : q <+: k <;> simp [hq]
  | ext p c =>
    simp only [prepend, lookup_ext, append_prefix_iff, length_append]
    by_cases hq : q <+: k
    · simp [hq, drop_drop]
    · simp [hq]
  | empty => exact lookup_ext q .empty k
  | stub ref => exact lookup_ext q (.stub ref) k
  | branch cs v => exact lookup_ext q (.branch cs v) k

/-! ## Frames -/

/-- One node above a hole. -/
inductive Frame (r : Nat) (ν ρ : Type) where
  | ext (path : List (Fin r))
  | branch (children : Fin r → PatriciaTree r ν ρ) (value : Option ν) (index : Fin r)

def Frame.key : Frame r ν ρ → List (Fin r)
  | .ext p => p
  | .branch _ _ i => [i]

def Frame.fill : Frame r ν ρ → PatriciaTree r ν ρ → PatriciaTree r ν ρ
  | .ext p, t => .ext p t
  | .branch cs v i, t => .branch (Function.update cs i t) v

/-- `t` below the frames, the innermost frame first. -/
def plug : List (Frame r ν ρ) → PatriciaTree r ν ρ → PatriciaTree r ν ρ
  | [], t => t
  | f :: fs, t => plug fs (f.fill t)

/-- The key of the hole. -/
def keyOf : List (Frame r ν ρ) → List (Fin r)
  | [] => []
  | f :: fs => keyOf fs ++ f.key

@[simp] theorem plug_nil (t : PatriciaTree r ν ρ) : plug [] t = t := rfl

@[simp] theorem plug_cons (f : Frame r ν ρ) (fs : List (Frame r ν ρ)) (t : PatriciaTree r ν ρ) :
    plug (f :: fs) t = plug fs (f.fill t) := rfl

@[simp] theorem keyOf_nil : keyOf ([] : List (Frame r ν ρ)) = [] := rfl

@[simp] theorem keyOf_cons (f : Frame r ν ρ) (fs : List (Frame r ν ρ)) :
    keyOf (f :: fs) = keyOf fs ++ f.key := rfl

theorem plug_append (fs gs : List (Frame r ν ρ)) (t : PatriciaTree r ν ρ) :
    plug (fs ++ gs) t = plug gs (plug fs t) := by
  induction fs generalizing t with
  | nil => rfl
  | cons f fs ih => exact ih (f.fill t)

theorem keyOf_append (fs gs : List (Frame r ν ρ)) : keyOf (fs ++ gs) = keyOf gs ++ keyOf fs := by
  induction fs with
  | nil => simp
  | cons f fs ih => simp [ih, append_assoc]

theorem lookup_fill (f : Frame r ν ρ) (t : PatriciaTree r ν ρ) (k : List (Fin r)) :
    lookup (f.fill t) (f.key ++ k) = lookup t k := by
  cases f with
  | ext p => exact lookup_ext_append p t k
  | branch cs v i => simp [Frame.fill, Frame.key]

theorem lookup_fill_of_not_prefix {f : Frame r ν ρ} (h : ¬ f.key <+: k) (t t' : PatriciaTree r ν ρ) :
    lookup (f.fill t) k = lookup (f.fill t') k := by
  cases f with
  | ext p =>
    have hp : ¬ p <+: k := h
    simp only [Frame.fill, lookup_ext, hp, if_false]
  | branch cs v i =>
    cases k with
    | nil => rfl
    | cons j k =>
      have hj : j ≠ i := fun hji => h (by simp [Frame.key, hji])
      simp only [Frame.fill, lookup_branch_cons, update_of_ne hj]

theorem lookup_plug (fs : List (Frame r ν ρ)) (t : PatriciaTree r ν ρ) (k : List (Fin r)) :
    lookup (plug fs t) (keyOf fs ++ k) = lookup t k := by
  induction fs generalizing t k with
  | nil => rfl
  | cons f fs ih =>
    rw [plug_cons, keyOf_cons, append_assoc, ih, lookup_fill]

variable {fs : List (Frame r ν ρ)}

/-- What is looked up elsewhere does not depend on what is in the hole. -/
theorem lookup_plug_of_not_prefix (h : ¬ keyOf fs <+: k) (t t' : PatriciaTree r ν ρ) :
    lookup (plug fs t) k = lookup (plug fs t') k := by
  induction fs generalizing t t' with
  | nil => exact absurd nil_prefix h
  | cons f fs ih =>
    by_cases hfs : keyOf fs <+: k
    · obtain ⟨k', rfl⟩ := hfs
      rw [plug_cons, plug_cons, lookup_plug, lookup_plug]
      refine lookup_fill_of_not_prefix (fun hf => h ?_) t t'
      exact (prefix_append_right_inj (keyOf fs)).mpr hf
    · exact ih hfs (f.fill t) (f.fill t')

/-- A change in the hole is the same change below the key of the hole. -/
theorem lookup_plug_congr {t' : PatriciaTree r ν ρ} {g : List (Fin r) → Option ν → Option ν}
    (fs : List (Frame r ν ρ)) (h : ∀ k, lookup t' k = g (keyOf fs ++ k) (lookup t k))
    (hg : ∀ k x, ¬ keyOf fs <+: k → g k x = x) (k : List (Fin r)) :
    lookup (plug fs t') k = g k (lookup (plug fs t) k) := by
  by_cases hk : keyOf fs <+: k
  · obtain ⟨k', rfl⟩ := hk
    rw [lookup_plug, lookup_plug, h]
  · rw [hg k _ hk]
    exact lookup_plug_of_not_prefix hk t' t

/-! ## Subtrees -/

inductive Sub : PatriciaTree r ν ρ → PatriciaTree r ν ρ → Prop
  | refl (t : PatriciaTree r ν ρ) : Sub t t
  | ext {s c : PatriciaTree r ν ρ} (p : List (Fin r)) : Sub s c → Sub s (.ext p c)
  | branch {s : PatriciaTree r ν ρ} {cs : Fin r → PatriciaTree r ν ρ} (v i) : Sub s (cs i) → Sub s (.branch cs v)

/-- A subtree beside the hole of a frame. -/
def Frame.Beside (s : PatriciaTree r ν ρ) : Frame r ν ρ → Prop
  | .ext _ => False
  | .branch cs _ i => ∃ j, j ≠ i ∧ Sub s (cs j)

variable {s : PatriciaTree r ν ρ}

theorem Sub.trans {u : PatriciaTree r ν ρ} (h : Sub s t) (h' : Sub t u) : Sub s u := by
  induction h' with
  | refl => exact h
  | ext p _ ih => exact .ext p ih
  | branch v i _ ih => exact .branch v i ih

theorem sub_ext_iff {c : PatriciaTree r ν ρ} :
    Sub s (.ext p c) ↔ s = .ext p c ∨ Sub s c := by
  constructor
  · intro h
    cases h with
    | refl => exact .inl rfl
    | ext p h => exact .inr h
  · rintro (rfl | h)
    · exact .refl _
    · exact .ext p h

variable {cs : Fin r → PatriciaTree r ν ρ}

theorem sub_branch_iff {v : Option ν} :
    Sub s (.branch cs v) ↔ s = .branch cs v ∨ ∃ i, Sub s (cs i) := by
  constructor
  · intro h
    cases h with
    | refl => exact .inl rfl
    | branch v i h => exact .inr ⟨i, h⟩
  · rintro (rfl | ⟨i, h⟩)
    · exact .refl _
    · exact .branch v i h

theorem sub_leaf_iff {v : ν} :
    Sub s (.leaf p v) ↔ s = .leaf p v := by
  constructor
  · intro h
    cases h
    rfl
  · rintro rfl
    exact .refl _

theorem sub_empty_iff : Sub s .empty ↔ s = .empty := by
  constructor
  · intro h
    cases h
    rfl
  · rintro rfl
    exact .refl _

theorem sub_stub_iff {ref : ρ} : Sub s (.stub ref) ↔ s = .stub ref := by
  constructor
  · intro h
    cases h
    rfl
  · rintro rfl
    exact .refl _

theorem sub_fill_iff {f : Frame r ν ρ} :
    Sub s (f.fill t) ↔ s = f.fill t ∨ Sub s t ∨ f.Beside s := by
  cases f with
  | ext p =>
    simp only [Frame.fill, sub_ext_iff, Frame.Beside, or_false]
  | branch cs v i =>
    simp only [Frame.fill, sub_branch_iff, Frame.Beside]
    constructor
    · rintro (h | ⟨j, h⟩)
      · exact .inl h
      · by_cases hj : j = i
        · subst hj
          rw [update_self] at h
          exact .inr (.inl h)
        · rw [update_of_ne hj] at h
          exact .inr (.inr ⟨j, hj, h⟩)
    · rintro (h | h | ⟨j, hj, h⟩)
      · exact .inl h
      · exact .inr ⟨i, by rwa [update_self]⟩
      · exact .inr ⟨j, by rwa [update_of_ne hj]⟩

/-! ## Descending to a key -/

/-- The frames passed on the way to `k`, the node where the way ends, and the rest of `k`. -/
def descend : PatriciaTree r ν ρ → List (Fin r) → List (Frame r ν ρ) →
    List (Frame r ν ρ) × PatriciaTree r ν ρ × List (Fin r)
  | .ext p c, k, fs =>
    if p <+: k then descend c (k.drop p.length) (.ext p :: fs) else (fs, .ext p c, k)
  | .branch cs v, i :: k, fs =>
    if (cs i).isEmpty then (fs, .branch cs v, i :: k)
    else descend (cs i) k (.branch cs v i :: fs)
  | t, k, fs => (fs, t, k)

/-- The way to `k` ends at this node. -/
def Stuck : PatriciaTree r ν ρ → List (Fin r) → Prop
  | .ext p _, k => ¬ p <+: k
  | .branch cs _, i :: _ => cs i = .empty
  | .branch _ _, [] | .empty, _ | .stub _, _ | .leaf _ _, _ => True

/-- A tree taken apart at a key. -/
structure Split (t : PatriciaTree r ν ρ) (k : List (Fin r)) (fs : List (Frame r ν ρ))
    (last : PatriciaTree r ν ρ) (rest : List (Fin r)) : Prop where
  plug_eq : plug fs last = t
  key_eq : keyOf fs ++ rest = k
  stuck : Stuck last rest

theorem descend_spec (t : PatriciaTree r ν ρ) (k : List (Fin r)) (fs : List (Frame r ν ρ)) :
    Split (plug fs t) (keyOf fs ++ k) (descend t k fs).1 (descend t k fs).2.1
      (descend t k fs).2.2 := by
  induction t generalizing k fs with
  | empty => exact ⟨rfl, rfl, trivial⟩
  | stub ref => exact ⟨rfl, rfl, trivial⟩
  | leaf p v => exact ⟨rfl, rfl, trivial⟩
  | ext p c ih =>
    simp only [descend]
    split
    · rename_i hp
      obtain ⟨k', rfl⟩ := hp
      have hrest := ih k' (.ext p :: fs)
      rw [plug_cons, keyOf_cons, append_assoc] at hrest
      rw [drop_left]
      exact hrest
    · rename_i hp
      exact ⟨rfl, rfl, hp⟩
  | branch cs v ih =>
    cases k with
    | nil => exact ⟨rfl, rfl, trivial⟩
    | cons i k =>
      simp only [descend]
      split
      · rename_i hempty
        exact ⟨rfl, rfl, isEmpty_iff.mp hempty⟩
      · have hrest := ih i k (.branch cs v i :: fs)
        rw [plug_cons, keyOf_cons, append_assoc] at hrest
        simp only [Frame.fill, update_eq_self] at hrest
        exact hrest

theorem length_le_descend (t : PatriciaTree r ν ρ) (k : List (Fin r)) (fs : List (Frame r ν ρ)) :
    fs.length ≤ (descend t k fs).1.length := by
  induction t generalizing k fs with
  | empty => exact Nat.le_refl _
  | stub ref => exact Nat.le_refl _
  | leaf p v => exact Nat.le_refl _
  | ext p c ih =>
    simp only [descend]
    split
    · exact (Nat.le_succ _).trans (ih _ (.ext p :: fs))
    · exact Nat.le_refl _
  | branch cs v ih =>
    cases k with
    | nil => exact Nat.le_refl _
    | cons i k =>
      simp only [descend]
      split
      · exact Nat.le_refl _
      · exact (Nat.le_succ _).trans (ih i k (.branch cs v i :: fs))

variable {last : PatriciaTree r ν ρ} {rest : List (Fin r)}

theorem Split.lookup_eq (h : Split t k fs last rest) : lookup t k = lookup last rest := by
  rw [← h.plug_eq, ← h.key_eq, lookup_plug]

/-! ## Grafting a value in -/

/-- The common prefix of two paths and what they are behind it. -/
def fork : List (Fin r) → List (Fin r) → List (Fin r) × List (Fin r) × List (Fin r)
  | a :: p, b :: q => if a = b then (a :: (fork p q).1, (fork p q).2) else ([], a :: p, b :: q)
  | p, q => ([], p, q)

theorem fork_append (p q : List (Fin r)) :
    (fork p q).1 ++ (fork p q).2.1 = p ∧ (fork p q).1 ++ (fork p q).2.2 = q := by
  induction p generalizing q with
  | nil => exact ⟨rfl, rfl⟩
  | cons a p ih =>
    cases q with
    | nil => exact ⟨rfl, rfl⟩
    | cons b q =>
      simp only [fork]
      split
      · rename_i hab
        subst hab
        obtain ⟨hp, hq⟩ := ih q
        exact ⟨congrArg (a :: ·) hp, congrArg (a :: ·) hq⟩
      · exact ⟨rfl, rfl⟩

theorem fork_self (p : List (Fin r)) : fork p p = (p, [], []) := by
  induction p with
  | nil => rfl
  | cons a p ih => simp only [fork, if_true, ih]

theorem fork_parts (p q : List (Fin r)) (a : Fin r) (p' q' : List (Fin r)) :
    ¬ ((fork p q).2.1 = a :: p' ∧ (fork p q).2.2 = a :: q') := by
  induction p generalizing q with
  | nil =>
    rintro ⟨hp, -⟩
    simp [fork] at hp
  | cons b p ih =>
    cases q with
    | nil =>
      rintro ⟨-, hq⟩
      simp [fork] at hq
    | cons c q =>
      simp only [fork]
      split
      · exact ih q
      · rename_i hbc
        rintro ⟨hp, hq⟩
        exact hbc ((List.cons.inj hp).1.trans (List.cons.inj hq).1.symm)

/-- A leaf or extension with another path; no extension is left over an empty one. -/
def withPath (q : List (Fin r)) : PatriciaTree r ν ρ → PatriciaTree r ν ρ
  | .leaf _ v => .leaf q v
  | .ext _ c => extend q c
  | t => t

def leafValue : PatriciaTree r ν ρ → Option ν
  | .leaf _ v => some v
  | .empty | .stub _ | .ext _ _ | .branch _ _ => none

/-- A branch that holds the node `t` alone, with `q` the rest of its path. -/
def forkBranch (t : PatriciaTree r ν ρ) (q : List (Fin r)) : PatriciaTree r ν ρ :=
  match q with
  | [] => .branch (fun _ => .empty) t.leafValue
  | j :: q => .branch (Function.update (fun _ => .empty) j (t.withPath q)) none

/-- `v` stored in a branch, as its value or in a new leaf below it. -/
def putInBranch (k : List (Fin r)) (v : ν) : PatriciaTree r ν ρ → PatriciaTree r ν ρ
  | .branch cs w =>
    match k with
    | [] => .branch cs (some v)
    | i :: k => .branch (Function.update cs i (.leaf k v)) w
  | t => t

/-- What the node where the way to `k` ends becomes when `v` is stored there. -/
def graft (t : PatriciaTree r ν ρ) (k : List (Fin r)) (v : ν) : PatriciaTree r ν ρ :=
  match t with
  | .branch cs w => putInBranch k v (.branch cs w)
  | .leaf p w =>
    if p = k then .leaf p v
    else
      let (common, old, new) := fork p k
      extend common (putInBranch new v (forkBranch (.leaf p w) old))
  | .ext p c =>
    let (common, old, new) := fork p k
    extend common (putInBranch new v (forkBranch (.ext p c) old))
  | .empty | .stub _ => .leaf k v

theorem lookup_putInBranch {w : Option ν} (v : ν) (h : Stuck (.branch cs w) k) (x : List (Fin r)) :
    lookup (putInBranch k v (.branch cs w)) x =
      if x = k then some v else lookup (.branch cs w) x := by
  cases k with
  | nil => cases x <;> simp [putInBranch]
  | cons i k =>
    have hempty : cs i = .empty := h
    cases x with
    | nil => simp [putInBranch]
    | cons j x =>
      by_cases hj : j = i
      · subst hj
        simp [putInBranch, hempty, eq_comm]
      · simp [putInBranch, hj]

theorem lookup_forkBranch_leaf (p q : List (Fin r)) (w : ν) (k : List (Fin r)) :
    lookup (forkBranch (.leaf p w : PatriciaTree r ν ρ) q) k =
      lookup (.leaf q w : PatriciaTree r ν ρ) k := by
  cases q with
  | nil => cases k <;> simp [forkBranch, leafValue]
  | cons j q =>
    cases k with
    | nil => simp [forkBranch]
    | cons i k =>
      by_cases hi : i = j
      · subst hi
        simp [forkBranch, withPath]
      · simp [forkBranch, hi, Ne.symm hi]

theorem lookup_forkBranch_ext (hq : q ≠ []) (c : PatriciaTree r ν ρ) (k : List (Fin r)) :
    lookup (forkBranch (.ext p c) q) k = lookup (.ext q c) k := by
  obtain ⟨j, q, rfl⟩ := exists_cons_of_ne_nil hq
  cases k with
  | nil => simp [forkBranch]
  | cons i k =>
    by_cases hi : i = j
    · subst hi
      simp [forkBranch, withPath, lookup_extend]
    · simp [forkBranch, hi, Ne.symm hi]

theorem stuck_forkBranch (t : PatriciaTree r ν ρ) (p k : List (Fin r)) :
    Stuck (forkBranch t (fork p k).2.1) (fork p k).2.2 := by
  have hparts := fork_parts p k
  cases hold : (fork p k).2.1 with
  | nil =>
    cases (fork p k).2.2 with
    | nil => trivial
    | cons i s => rfl
  | cons j q =>
    cases hnew : (fork p k).2.2 with
    | nil => exact trivial
    | cons i s =>
      have hij : i ≠ j := fun h => hparts j q s ⟨hold, h ▸ hnew⟩
      simp [forkBranch, Stuck, hij]

theorem forkBranch_eq_branch (t : PatriciaTree r ν ρ) (q : List (Fin r)) :
    ∃ cs w, forkBranch t q = .branch cs w := by
  cases q <;> exact ⟨_, _, rfl⟩

/-- A value stored at a fork, where `old` stands for the node behind the common prefix. -/
theorem lookup_fork {old : PatriciaTree r ν ρ} {a s : List (Fin r)} (v : ν)
    (hold : ∃ cs w, old = .branch cs w) (hstuck : Stuck old s)
    (hinside : ∀ k, lookup t (a ++ k) = lookup old k)
    (houtside : ∀ k, ¬ a <+: k → lookup t k = none) (x : List (Fin r)) :
    lookup (extend a (putInBranch s v old)) x = if x = a ++ s then some v else lookup t x := by
  obtain ⟨cs, w, rfl⟩ := hold
  rw [lookup_extend]
  by_cases hx : a <+: x
  · obtain ⟨x', rfl⟩ := hx
    rw [if_pos (prefix_append a x'), drop_left, lookup_putInBranch v hstuck, hinside]
    simp only [append_right_inj]
  · have hne : x ≠ a ++ s := by
      rintro rfl
      exact hx (prefix_append a s)
    rw [if_neg hx, if_neg hne, houtside x hx]

theorem lookup_graft (v : ν) (hstuck : Stuck t k) (hstub : ∀ ref, t ≠ .stub ref) (x : List (Fin r)) :
    
    lookup (graft t k v) x = if x = k then some v else lookup t x := by
  have hstuckFork (t : PatriciaTree r ν ρ) (p : List (Fin r)) := stuck_forkBranch t p k
  cases t with
  | empty => simp [graft, eq_comm]
  | stub ref => exact absurd rfl (hstub ref)
  | branch cs w => exact lookup_putInBranch v hstuck x
  | leaf p w =>
    by_cases hp : p = k
    · subst hp
      simp only [graft, if_true, lookup_leaf]
      by_cases hx : p = x
      · simp [hx]
      · simp [hx, Ne.symm hx]
    · obtain ⟨hpath, hkey⟩ := fork_append p k
      have hfork := hstuckFork (.leaf p w) p
      simp only [graft, hp, if_false]
      generalize fork p k = f at hpath hkey hfork
      obtain ⟨common, old, new⟩ := f
      subst hkey hpath
      refine lookup_fork v (forkBranch_eq_branch _ _) hfork ?_ ?_ x
      · intro y
        rw [lookup_forkBranch_leaf]
        simp
      · intro y hy
        rw [lookup_leaf, if_neg]
        rintro rfl
        exact hy (prefix_append common old)
  | ext p c =>
    have hp : ¬ p <+: k := hstuck
    obtain ⟨hpath, hkey⟩ := fork_append p k
    have hfork := hstuckFork (.ext p c) p
    simp only [graft]
    generalize fork p k = f at hpath hkey hfork
    obtain ⟨common, old, new⟩ := f
    subst hkey hpath
    have hold : old ≠ [] := by
      rintro rfl
      exact hp (by simp)
    refine lookup_fork v (forkBranch_eq_branch _ _) hfork ?_ ?_ x
    · intro y
      rw [lookup_forkBranch_ext hold]
      simp only [lookup_ext, prefix_append_right_inj, length_append, ← drop_drop,
        drop_left]
    · intro y hy
      rw [lookup_ext, if_neg]
      exact fun hprefix => hy ((prefix_append common old).trans hprefix)

/-- Storing a value changes the lookup of its key alone. -/
theorem Split.lookup_graft (h : Split t k fs last rest) (hstub : ∀ ref, last ≠ .stub ref) (v : ν)
    (x : List (Fin r)) :
    lookup (plug fs (graft last rest v)) x = if x = k then some v else lookup t x := by
  rw [← h.plug_eq, ← h.key_eq]
  refine lookup_plug_congr (g := fun y z => if y = keyOf fs ++ rest then some v else z) fs ?_ ?_ x
  · intro y
    rw [PatriciaTree.lookup_graft v h.stuck hstub]
    simp only [append_right_inj]
  · intro y z hy
    refine if_neg ?_
    rintro rfl
    exact hy (prefix_append _ _)

/-! ## Closing up a branch -/

/-- The digits under which a branch has a child. -/
def children (cs : Fin r → PatriciaTree r ν ρ) : List (Fin r) :=
  (List.finRange r).filter (fun i => !(cs i).isEmpty)

theorem mem_children {i : Fin r} :
    i ∈ children cs ↔ cs i ≠ .empty := by
  simp [children, isEmpty_eq_false]

/-- The one child `t` of a branch takes the place of the branch; an extension above it
becomes part of the path. -/
def absorb (fs : List (Frame r ν ρ)) (j : Fin r) (t : PatriciaTree r ν ρ) : PatriciaTree r ν ρ :=
  match fs with
  | .ext p :: fs => plug fs (prepend (p ++ [j]) t)
  | fs => plug fs (prepend [j] t)

theorem lookup_prepend_concat (p : List (Fin r)) (j : Fin r) (t : PatriciaTree r ν ρ)
    (k : List (Fin r)) : lookup (prepend (p ++ [j]) t) k = lookup (.ext p (prepend [j] t)) k := by
  rw [lookup_prepend, lookup_ext, lookup_prepend]
  simp only [append_prefix_iff, length_append, ← drop_drop]
  by_cases hp : p <+: k <;> simp [hp]

theorem lookup_absorb (fs : List (Frame r ν ρ)) (j : Fin r) (t : PatriciaTree r ν ρ)
    (x : List (Fin r)) : lookup (absorb fs j t) x = lookup (plug fs (prepend [j] t)) x := by
  cases fs with
  | nil => rfl
  | cons f fs =>
    cases f with
    | branch cs v i => rfl
    | ext p =>
      exact lookup_plug_congr (g := fun _ z => z) fs (lookup_prepend_concat p j t)
        (fun _ _ _ => rfl) x

/-- A branch without a value and with one child says what its child says. -/
theorem lookup_prepend_child {j : Fin r} (hone : ∀ i, cs i ≠ .empty → i = j) (x : List (Fin r)) :
    lookup (prepend [j] (cs j)) x = lookup (.branch cs none) x := by
  rw [lookup_prepend]
  cases x with
  | nil => simp
  | cons i x =>
    by_cases hi : i = j
    · subst hi
      simp
    · have hempty : cs i = .empty := by
        by_contra hne
        exact hi (hone i hne)
      simp [hempty, Ne.symm hi]

/-- What a branch below `fs` becomes after it has lost a child or its value. A value that is
still there is lost when one child is left. -/
def closeUp (fs : List (Frame r ν ρ)) (cs : Fin r → PatriciaTree r ν ρ) (v : Option ν) :
    PatriciaTree r ν ρ :=
  match children cs with
  | [j] => absorb fs j (cs j)
  | _ => plug fs (.branch cs v)

/-- The tree after the node at the end of a way has been erased. A branch keeps its value
unless it is closed up. -/
def erase (fs : List (Frame r ν ρ)) (last : PatriciaTree r ν ρ) : PatriciaTree r ν ρ :=
  match fs, last with
  | [], _ => .empty
  | fs, .branch cs v => closeUp fs cs v
  | .branch cs v i :: fs, _ => closeUp fs (Function.update cs i .empty) v
  | fs, last => plug fs last

/-- No value is in the way of the erasure. -/
def ErasesCleanly (fs : List (Frame r ν ρ)) (last : PatriciaTree r ν ρ) : Prop :=
  match fs, last with
  | _, .branch cs v => v = none ∨ (children cs).length = 1
  | .branch cs v i :: _, _ => v = none ∨ (children (Function.update cs i .empty)).length ≠ 1
  | _, _ => True

instance (fs : List (Frame r ν ρ)) (last : PatriciaTree r ν ρ) : Decidable (ErasesCleanly fs last) :=
  match fs, last with
  | [], .branch cs v | .ext _ :: _, .branch cs v | .branch _ _ _ :: _, .branch cs v =>
    inferInstanceAs (Decidable (v = none ∨ (children cs).length = 1))
  | .branch cs v i :: _, .empty | .branch cs v i :: _, .stub _ | .branch cs v i :: _, .leaf _ _
  | .branch cs v i :: _, .ext _ _ =>
    inferInstanceAs (Decidable (v = none ∨ (children (Function.update cs i .empty)).length ≠ 1))
  | [], .empty | [], .stub _ | [], .leaf _ _ | [], .ext _ _ => .isTrue trivial
  | .ext _ :: _, .empty | .ext _ :: _, .stub _ | .ext _ :: _, .leaf _ _ | .ext _ :: _, .ext _ _ =>
    .isTrue trivial

theorem closeUp_of_length_ne (h : (children cs).length ≠ 1) (fs : List (Frame r ν ρ)) (v : Option ν) :
    closeUp fs cs v = plug fs (.branch cs v) := by
  unfold closeUp
  split
  · rename_i j hone
    rw [hone] at h
    exact absurd rfl h
  · rfl

/-- The one child of a branch that is closed up. -/
theorem closeUp_of_length_eq (h : (children cs).length = 1) (fs : List (Frame r ν ρ)) (v : Option ν) :
    
    ∃ j, cs j ≠ .empty ∧ (∀ i, cs i ≠ .empty → i = j) ∧ closeUp fs cs v = absorb fs j (cs j) := by
  obtain ⟨j, hj⟩ := List.length_eq_one_iff.mp h
  refine ⟨j, ?_, ?_, ?_⟩
  · rw [← mem_children, hj]
    exact mem_singleton.mpr rfl
  · intro i hi
    rw [← mem_children, hj] at hi
    exact mem_singleton.mp hi
  · unfold closeUp
    rw [hj]

/-- Closing up drops the value of a branch with one child, and nothing else. -/
theorem lookup_closeUp (fs : List (Frame r ν ρ)) (cs : Fin r → PatriciaTree r ν ρ) (v : Option ν)
    (x : List (Fin r)) :
    lookup (closeUp fs cs v) x =
      lookup (plug fs (.branch cs (if (children cs).length = 1 then none else v))) x := by
  by_cases hone : (children cs).length = 1
  · obtain ⟨j, -, hj, hclose⟩ := closeUp_of_length_eq hone fs v
    rw [hclose, lookup_absorb, if_pos hone]
    exact lookup_plug_congr (g := fun _ z => z) fs (lookup_prepend_child hj) (fun _ _ _ => rfl) x
  · rw [closeUp_of_length_ne hone, if_neg hone]

/-- Erasing removes its key and nothing else, if no value is in the way. -/
theorem Split.lookup_erase (h : Split t k fs last rest)
    (hfound : (∃ v, last = .leaf rest v) ∨ (rest = [] ∧ fs ≠ [] ∧ last.isBranch))
    (hext : ∀ p gs, fs = .ext p :: gs → last.isBranch) (hclean : ErasesCleanly fs last)
    (x : List (Fin r)) : lookup (erase fs last) x = if x = k then none else lookup t x := by
  rw [← h.plug_eq, ← h.key_eq]
  rcases hfound with ⟨w, rfl⟩ | ⟨rfl, hne, hbranch⟩
  · match fs with
    | [] =>
      by_cases hx : x = rest
      · simp [erase, hx]
      · simp [erase, hx, Ne.symm hx]
    | .ext p :: gs => cases hext p gs rfl
    | .branch cs v i :: gs =>
      have hvalue : (if (children (update cs i .empty)).length = 1 then none else v) = v := by
        rcases hclean with rfl | hlen
        · exact ite_self none
        · exact if_neg hlen
      simp only [erase, lookup_closeUp, hvalue, plug_cons, Frame.fill, keyOf_cons, Frame.key,
        append_assoc, singleton_append]
      refine lookup_plug_congr (g := fun y z => if y = keyOf gs ++ i :: rest then none else z) gs
        ?_ ?_ x
      · intro y
        cases y with
        | nil => simp
        | cons j y =>
          by_cases hj : j = i
          · subst hj
            by_cases hy : y = rest
            · simp [hy]
            · simp [hy, Ne.symm hy]
          · simp [hj]
      · intro y z hy
        refine if_neg ?_
        rintro rfl
        exact hy (prefix_append _ _)
  · cases last with
    | branch cs v =>
      obtain ⟨f, gs, rfl⟩ := exists_cons_of_ne_nil hne
      have hcloses : erase (f :: gs) (.branch cs v) = closeUp (f :: gs) cs v := by
        cases f <;> rfl
      have hvalue : (if (children cs).length = 1 then none else v) = none := by
        have hclean' : v = none ∨ (children cs).length = 1 := by
          cases f <;> exact hclean
        rcases hclean' with rfl | hlen
        · exact ite_self none
        · exact if_pos hlen
      rw [hcloses, lookup_closeUp, hvalue, append_nil]
      refine lookup_plug_congr (g := fun y z => if y = keyOf (f :: gs) then none else z) (f :: gs)
        ?_ ?_ x
      · intro y
        cases y <;> simp
      · intro y z hy
        refine if_neg ?_
        rintro rfl
        exact hy (prefix_refl _)
    | empty => cases hbranch
    | stub ref => cases hbranch
    | leaf p w => cases hbranch
    | ext p c => cases hbranch

end PatriciaTree
