-- SUMMARY: Finite maps that keep their keys in insertion order, as the built-in `Map` does, with sums over their keys.
import Mathlib.Algebra.BigOperators.Group.Finset.Basic
import Mathlib.Data.List.Nodup

/-!
# Insertion-ordered maps

A finite map kept as the list of its entries. Setting a key that is present
keeps its place, a new key goes to the end, and a deleted key that comes back
goes to the end again. This is the order in which such a map is iterated.
-/

open List Finset

/-- A finite map whose keys are listed in the order of their insertion. -/
structure OrderedMap (κ ν : Type) where
  entries : List (κ × ν)
  nodup : (entries.map Prod.fst).Nodup

namespace OrderedMap

variable {κ ν : Type}

def empty : OrderedMap κ ν where
  entries := []
  nodup := List.nodup_nil

instance : Inhabited (OrderedMap κ ν) := ⟨empty⟩

/-- The keys, in iteration order. -/
def keys (m : OrderedMap κ ν) : List κ := m.entries.map Prod.fst

theorem nodup_keys (m : OrderedMap κ ν) : m.keys.Nodup := m.nodup

variable [DecidableEq κ]

/-! ## Lookup -/

/-- The value of the first entry for `k`. -/
def find (k : κ) : List (κ × ν) → Option ν
  | [] => none
  | e :: es => if e.1 = k then some e.2 else find k es

def get (m : OrderedMap κ ν) (k : κ) : Option ν := find k m.entries

def has (m : OrderedMap κ ν) (k : κ) : Bool := (m.get k).isSome

@[simp] theorem get_empty (k : κ) : (empty : OrderedMap κ ν).get k = none := rfl

variable {k : κ}

theorem find_eq_none {es : List (κ × ν)} : find k es = none ↔ k ∉ es.map Prod.fst := by
  induction es with
  | nil => simp [find]
  | cons e es ih =>
    simp only [find, List.map_cons, List.mem_cons, not_or]
    split
    · rename_i hek
      simp [hek]
    · rename_i hek
      rw [ih]
      exact ⟨fun h => ⟨fun hk => hek hk.symm, h⟩, fun h => h.2⟩

variable {m : OrderedMap κ ν}

theorem get_eq_none : m.get k = none ↔ k ∉ m.keys := find_eq_none

theorem mem_keys : k ∈ m.keys ↔ ∃ v, m.get k = some v := by
  rw [← not_iff_not, ← get_eq_none]
  cases m.get k with
  | none => simp
  | some v => simp

/-! ## Update -/

/-- Replace the value of the first entry for `k`, or append an entry. -/
def setEntry (k : κ) (v : ν) : List (κ × ν) → List (κ × ν)
  | [] => [(k, v)]
  | e :: es => if e.1 = k then (k, v) :: es else e :: setEntry k v es

theorem setEntry_keys (k : κ) (v : ν) (es : List (κ × ν)) :
    (setEntry k v es).map Prod.fst =
      if k ∈ es.map Prod.fst then es.map Prod.fst else es.map Prod.fst ++ [k] := by
  induction es with
  | nil => simp [setEntry]
  | cons e es ih =>
    by_cases hek : e.1 = k
    · simp [setEntry, hek]
    · have hke : k ≠ e.1 := fun h => hek h.symm
      simp only [setEntry, hek, if_false, List.map_cons, ih, List.mem_cons, hke, false_or]
      split <;> simp

def set (m : OrderedMap κ ν) (k : κ) (v : ν) : OrderedMap κ ν where
  entries := setEntry k v m.entries
  nodup := by
    rw [setEntry_keys]
    split
    · exact m.nodup
    · rename_i hk
      exact List.Nodup.append m.nodup (List.nodup_singleton k) (by simpa using hk)

def delete (m : OrderedMap κ ν) (k : κ) : OrderedMap κ ν where
  entries := m.entries.filter (fun e => e.1 ≠ k)
  nodup := m.nodup.sublist (List.filter_sublist.map Prod.fst)

theorem find_setEntry (k k' : κ) (v : ν) (es : List (κ × ν)) :
    find k' (setEntry k v es) = if k' = k then some v else find k' es := by
  induction es with
  | nil => simp [setEntry, find, eq_comm]
  | cons e es ih =>
    by_cases hek : e.1 = k
    · by_cases hk : k' = k
      · simp [setEntry, find, hek, hk]
      · simp [setEntry, find, hek, hk, Ne.symm hk]
    · simp only [setEntry, hek, if_false, find, ih]
      split
      · rename_i hek'
        rw [if_neg (fun h => hek (hek'.trans h))]
      · rfl

@[simp] theorem get_set (m : OrderedMap κ ν) (k k' : κ) (v : ν) :
    (m.set k v).get k' = if k' = k then some v else m.get k' := find_setEntry k k' v m.entries

theorem find_filter (k k' : κ) (es : List (κ × ν)) :
    find k' (es.filter (fun e => e.1 ≠ k)) = if k' = k then none else find k' es := by
  induction es with
  | nil => simp [find]
  | cons e es ih =>
    by_cases hek : e.1 = k
    · rw [List.filter_cons_of_neg (by simpa using hek), ih]
      by_cases hk : k' = k
      · simp [hk]
      · simp [find, hek, hk, Ne.symm hk]
    · rw [List.filter_cons_of_pos (by simpa using hek)]
      simp only [find, ih]
      split
      · rename_i hek'
        rw [if_neg (fun h => hek (hek'.trans h))]
      · rfl

@[simp] theorem get_delete (m : OrderedMap κ ν) (k k' : κ) :
    (m.delete k).get k' = if k' = k then none else m.get k' := find_filter k k' m.entries

/-! ## Size -/

def size (m : OrderedMap κ ν) : Nat := m.entries.length

omit [DecidableEq κ] in
theorem length_keys (m : OrderedMap κ ν) : m.keys.length = m.size := length_map Prod.fst

theorem size_delete_le (m : OrderedMap κ ν) (k : κ) : (m.delete k).size ≤ m.size :=
  length_filter_le _ m.entries

/-- A key that is set comes to one more entry at most. -/
theorem size_set_le (m : OrderedMap κ ν) (k : κ) (v : ν) : (m.set k v).size ≤ m.size + 1 := by
  have hkeys : (m.set k v).keys = if k ∈ m.keys then m.keys else m.keys ++ [k] :=
    setEntry_keys k v m.entries
  rw [← length_keys, ← length_keys, hkeys]
  split
  · exact Nat.le_succ _
  · exact (length_append ..).le

/-! ## Iteration -/

/-- What is read at a key after a pass over the entries that changes each at its own key. -/
theorem read_foldl_update {σ β : Type} (f : σ → κ × ν → σ) (read : σ → κ → β) (val : ν → β → β)
    (hf : ∀ s e k, read (f s e) k = if k = e.1 then val e.2 (read s k) else read s k)
    (m : OrderedMap κ ν) (s : σ) (k : κ) :
    read (m.entries.foldl f s) k = ((m.get k).map (val · (read s k))).getD (read s k) := by
  obtain ⟨es, hnodup⟩ := m
  induction es generalizing s with
  | nil => rfl
  | cons e es ih =>
    have htail : (es.map Prod.fst).Nodup := (nodup_cons.mp hnodup).2
    have hrest : read (es.foldl f (f s e)) k =
        ((find k es).map (val · (read (f s e) k))).getD (read (f s e) k) := ih (f s e) htail
    simp only [foldl_cons, hrest, hf]
    by_cases hk : e.1 = k
    · subst hk
      have hfind : find e.1 es = none := find_eq_none.mpr (nodup_cons.mp hnodup).1
      simp [get, find, hfind]
    · simp [get, find, hk, Ne.symm hk]

/-- What is read at a key after a pass over the entries that writes each at its own key. -/
theorem read_foldl_entries {σ β : Type} (f : σ → κ × ν → σ) (read : σ → κ → β) (val : ν → β)
    (hf : ∀ s e k, read (f s e) k = if k = e.1 then val e.2 else read s k)
    (m : OrderedMap κ ν) (s : σ) (k : κ) :
    read (m.entries.foldl f s) k = ((m.get k).map val).getD (read s k) :=
  read_foldl_update f read (fun v _ => val v) hf m s k

theorem get_foldl_set (ks : List κ) (v : ν) (m : OrderedMap κ ν) (k : κ) :
    (ks.foldl (fun m k => m.set k v) m).get k = if k ∈ ks then some v else m.get k := by
  induction ks generalizing m with
  | nil => simp
  | cons j ks ih =>
    rw [List.foldl_cons, ih, get_set]
    by_cases hk : k ∈ ks
    · rw [if_pos hk, if_pos (List.mem_cons_of_mem j hk)]
    · simp only [List.mem_cons, hk, or_false, if_false]

/-- What is left after some keys have been deleted. -/
theorem get_foldl_delete (ks : List κ) (m : OrderedMap κ ν) (k : κ) :
    (ks.foldl delete m).get k = if k ∈ ks then none else m.get k := by
  induction ks generalizing m with
  | nil => simp
  | cons j ks ih =>
    rw [List.foldl_cons, ih, get_delete]
    by_cases hk : k ∈ ks
    · rw [if_pos hk, if_pos (List.mem_cons_of_mem j hk)]
    · simp only [List.mem_cons, hk, or_false, if_false]

/-! ## Values -/

/-- The same keys with other values. -/
def mapValues {ν' : Type} (f : ν → ν') (m : OrderedMap κ ν) : OrderedMap κ ν' where
  entries := m.entries.map fun e => (e.1, f e.2)
  nodup := by
    rw [List.map_map]
    exact m.nodup

@[simp] theorem get_mapValues {ν' : Type} (f : ν → ν') (m : OrderedMap κ ν) (k : κ) :
    (m.mapValues f).get k = (m.get k).map f := by
  obtain ⟨es, hnodup⟩ := m
  unfold get mapValues
  dsimp only
  clear hnodup
  induction es with
  | nil => rfl
  | cons e es ih =>
    simp only [List.map_cons, find, ih]
    split <;> rfl

/-- The keys with a value that passes the test. -/
def keysWhere (p : ν → Bool) (m : OrderedMap κ ν) : List κ :=
  (m.entries.filter fun e => p e.2).map Prod.fst

theorem mem_keysWhere {p : ν → Bool} : k ∈ m.keysWhere p ↔ ∃ v, m.get k = some v ∧ p v = true := by
  obtain ⟨es, hnodup⟩ := m
  unfold get keysWhere
  dsimp only
  induction es with
  | nil => simp [find]
  | cons e es ih =>
    have hcons := List.nodup_cons.mp hnodup
    have hrest := ih hcons.2
    by_cases hk : e.1 = k
    · subst hk
      have hnone : e.1 ∉ (es.filter fun e => p e.2).map Prod.fst :=
        fun h => hcons.1 ((List.filter_sublist.map Prod.fst).subset h)
      cases hp : p e.2
      · simp only [List.filter_cons, hp, Bool.false_eq_true, if_false, find, if_true,
          Option.some.injEq, exists_eq_left', iff_false]
        exact hnone
      · simp [hp, find]
    · cases hp : p e.2 <;> simp [hp, find, hk, Ne.symm hk, ← hrest]

/-! ## Sums over the keys -/

section Sum

variable {M : Type} [AddCommMonoid M]

/-- The sum of `g` over the keys. -/
def sumKeys (m : OrderedMap κ ν) (g : κ → M) : M := (m.keys.map g).sum

theorem sumKeys_eq_sum (m : OrderedMap κ ν) (g : κ → M) {s : Finset κ}
    (hsub : ∀ k ∈ m.keys, k ∈ s) (hzero : ∀ k, k ∉ m.keys → g k = 0) :
    m.sumKeys g = ∑ k ∈ s, g k := by
  have hlist : m.sumKeys g = ∑ k ∈ m.keys.toFinset, g k :=
    (sum_toFinset g m.nodup_keys).symm
  rw [hlist]
  apply sum_subset
  · intro k hk
    exact hsub k (mem_toFinset.mp hk)
  · intro k _ hk
    exact hzero k (fun h => hk (mem_toFinset.mpr h))

/-- Two maps whose summands differ at one key only: their sums differ by the
summands at that key. -/
theorem sumKeys_change (m m' : OrderedMap κ ν) (g g' : κ → M) (k : κ)
    (hzero : ∀ j, j ∉ m.keys → g j = 0) (hzero' : ∀ j, j ∉ m'.keys → g' j = 0)
    (hoff : ∀ j, j ≠ k → g' j = g j) : m'.sumKeys g' + g k = m.sumKeys g + g' k := by
  let s : Finset κ := insert k (m.keys.toFinset ∪ m'.keys.toFinset)
  have hk : k ∈ s := mem_insert_self _ _
  have hm : m.sumKeys g = ∑ j ∈ s, g j := sumKeys_eq_sum m g (by
    intro j hj
    simp [s, hj]) hzero
  have hm' : m'.sumKeys g' = ∑ j ∈ s, g' j := sumKeys_eq_sum m' g' (by
    intro j hj
    simp [s, hj]) hzero'
  have hrest : ∑ j ∈ s.erase k, g' j = ∑ j ∈ s.erase k, g j :=
    sum_congr rfl (fun j hj => hoff j (ne_of_mem_erase hj))
  rw [hm, hm', ← add_sum_erase s g hk, ← add_sum_erase s g' hk, hrest]
  ac_rfl

end Sum

/-! ## Sums of multisets -/

omit [DecidableEq κ] in
theorem mem_sum_map {β : Type} {g : κ → Multiset β} {x : β} {ks : List κ} :
    x ∈ (ks.map g).sum ↔ ∃ k ∈ ks, x ∈ g k := by
  induction ks with
  | nil => simp
  | cons k ks ih => simp [ih]

omit [DecidableEq κ] in
theorem mem_sumKeys {β : Type} {g : κ → Multiset β} {x : β} :
    x ∈ m.sumKeys g ↔ ∃ k ∈ m.keys, x ∈ g k := mem_sum_map

omit [DecidableEq κ] in
theorem le_sum_map {β : Type} (g : κ → Multiset β) :
    ∀ {ks : List κ}, k ∈ ks → g k ≤ (ks.map g).sum := by
  intro ks
  induction ks with
  | nil => intro hk; cases hk
  | cons j ks ih =>
    intro hk
    rw [List.map_cons, List.sum_cons]
    cases hk with
    | head => exact Multiset.le_add_right _ _
    | tail _ hk => exact le_trans (ih hk) (Multiset.le_add_left _ _)

omit [DecidableEq κ] in
theorem le_sumKeys {β : Type} (g : κ → Multiset β) (hk : k ∈ m.keys) :
    g k ≤ m.sumKeys g := le_sum_map g hk

omit [DecidableEq κ] in
theorem map_sumKeys {β γ : Type} (m : OrderedMap κ ν) (g : κ → Multiset β) (f : β → γ) :
    (m.sumKeys g).map f = m.sumKeys (fun k => (g k).map f) := by
  unfold sumKeys
  induction m.keys with
  | nil => simp
  | cons k ks ih => simp [ih]

omit [DecidableEq κ] in
/-- Disjoint multisets without repetitions add up to one without repetitions. -/
theorem nodup_sum_map {β : Type} {g : κ → Multiset β} (hg : ∀ k, (g k).Nodup)
    (hdisj : ∀ k j, k ≠ j → Disjoint (g k) (g j)) :
    ∀ {ks : List κ}, ks.Nodup → (ks.map g).sum.Nodup := by
  intro ks
  induction ks with
  | nil => intro _; exact Multiset.nodup_zero
  | cons k ks ih =>
    intro hkeys
    obtain ⟨hk, hks⟩ := List.nodup_cons.mp hkeys
    rw [List.map_cons, List.sum_cons, Multiset.nodup_add]
    refine ⟨hg k, ih hks, ?_⟩
    rw [Multiset.disjoint_left]
    intro x hx hsum
    obtain ⟨j, hj, hxj⟩ := mem_sum_map.mp hsum
    have hne : k ≠ j := fun h => hk (h ▸ hj)
    exact Multiset.disjoint_left.mp (hdisj k j hne) hx hxj

omit [DecidableEq κ] in
theorem nodup_sumKeys {β : Type} {g : κ → Multiset β} (hg : ∀ k, (g k).Nodup)
    (hdisj : ∀ k j, k ≠ j → Disjoint (g k) (g j)) : (m.sumKeys g).Nodup :=
  nodup_sum_map hg hdisj m.nodup_keys

end OrderedMap

/-! ## Sets -/

/-- A set that lists its members in the order of their insertion. -/
abbrev OrderedSet (κ : Type) := OrderedMap κ Unit

namespace OrderedMap

variable {κ : Type} [DecidableEq κ]

def add (s : OrderedSet κ) (k : κ) : OrderedSet κ := s.set k ()

theorem has_iff {ν : Type} {m : OrderedMap κ ν} {k : κ} : m.has k = true ↔ k ∈ m.keys := by
  rw [mem_keys, has, Option.isSome_iff_exists]

@[simp] theorem has_empty {ν : Type} (k : κ) : (empty : OrderedMap κ ν).has k = false := rfl

@[simp] theorem has_set {ν : Type} (m : OrderedMap κ ν) (k k' : κ) (v : ν) :
    (m.set k v).has k' = (decide (k' = k) || m.has k') := by
  unfold has
  rw [get_set]
  by_cases hk : k' = k <;> simp [hk]

@[simp] theorem has_delete {ν : Type} (m : OrderedMap κ ν) (k k' : κ) :
    (m.delete k).has k' = (!decide (k' = k) && m.has k') := by
  unfold has
  rw [get_delete]
  by_cases hk : k' = k <;> simp [hk]

@[simp] theorem has_add (s : OrderedSet κ) (k k' : κ) :
    (s.add k).has k' = (decide (k' = k) || s.has k') := has_set s k k' ()

end OrderedMap
