-- SUMMARY: A map kept as a cache in front of another one, and when the cache does not show.
import TsEthereum.Base.OrderedMap

/-!
# Caching

A cache answers before the map behind it does. What is served is the map with the
entries of the cache written over it. A cache that only has entries of the map
does not show, whatever is filled in and dropped.
-/

open List

namespace OrderedMap

variable {κ ν : Type} [DecidableEq κ]

/-! ## Serving -/

/-- What a cache and the map behind it answer. -/
def served (cache m : OrderedMap κ ν) : OrderedMap κ ν :=
  cache.entries.foldl (fun m e => m.set e.1 e.2) m

/-- A read that misses the cache leaves what it found there. -/
def fill (m cache : OrderedMap κ ν) (k : κ) : OrderedMap κ ν :=
  match cache.get k, m.get k with
  | none, some v => cache.set k v
  | _, _ => cache

theorem setEntry_same {k : κ} {v : ν} {es : List (κ × ν)} (h : find k es = some v) :
    setEntry k v es = es := by
  induction es with
  | nil => cases h
  | cons e es ih =>
    unfold find at h
    unfold setEntry
    split
    · next hk =>
      rw [if_pos hk] at h
      rw [← Option.some.inj h, ← hk]
    · next hk =>
      rw [if_neg hk] at h
      rw [ih h]

theorem set_same {m : OrderedMap κ ν} {k : κ} {v : ν} (h : m.get k = some v) : m.set k v = m := by
  obtain ⟨es, hnodup⟩ := m
  unfold set
  congr
  exact setEntry_same h

theorem get_of_mem {m : OrderedMap κ ν} {e : κ × ν} (h : e ∈ m.entries) : m.get e.1 = some e.2 := by
  obtain ⟨es, hnodup⟩ := m
  unfold get
  induction es with
  | nil => cases h
  | cons e' es ih =>
    have hcons := nodup_cons.mp hnodup
    rcases mem_cons.mp h with rfl | hrest
    · exact if_pos rfl
    · have hne : e'.1 ≠ e.1 := fun heq => hcons.1 (heq ▸ mem_map_of_mem hrest)
      exact (if_neg hne).trans (ih hcons.2 hrest)

theorem mem_of_get {m : OrderedMap κ ν} {k : κ} {v : ν} (h : m.get k = some v) :
    (k, v) ∈ m.entries := by
  unfold get at h
  generalize m.entries = es at h
  induction es with
  | nil => cases h
  | cons e es ih =>
    unfold find at h
    split at h
    · next hk =>
      obtain rfl := Option.some.inj h
      rw [← hk]
      exact mem_cons_self
    · exact mem_cons_of_mem e (ih h)

/-! ## Caches that do not show -/

/-- Every entry of the cache is one of the map. -/
def CacheOf (m cache : OrderedMap κ ν) : Prop := ∀ ⦃k v⦄, cache.get k = some v → m.get k = some v

variable {m cache : OrderedMap κ ν}

theorem cacheOf_empty : CacheOf m empty := by
  intro k v h
  cases h

variable (h : CacheOf m cache)
include h

theorem CacheOf.served_eq : served cache m = m := by
  have hentries : ∀ e ∈ cache.entries, m.get e.1 = some e.2 :=
    fun e he => h (get_of_mem he)
  unfold served
  generalize cache.entries = es at hentries
  induction es with
  | nil => rfl
  | cons e es ih =>
    rw [foldl_cons, set_same (hentries e mem_cons_self)]
    exact ih fun e' he' => hentries e' (mem_cons_of_mem e he')

theorem CacheOf.set (k : κ) (v : ν) : CacheOf (m.set k v) (cache.set k v) := by
  intro j w hj
  rw [get_set] at hj ⊢
  split at hj
  · next hjk => exact (if_pos hjk).trans hj
  · next hjk => exact (if_neg hjk).trans (h hj)

theorem CacheOf.delete (k : κ) : CacheOf (m.delete k) (cache.delete k) := by
  intro j w hj
  rw [get_delete] at hj ⊢
  split at hj
  · cases hj
  · next hjk => exact (if_neg hjk).trans (h hj)

theorem CacheOf.fill (k : κ) : CacheOf m (m.fill cache k) := by
  unfold OrderedMap.fill
  split
  · next v _ hv =>
    intro j w hj
    rw [get_set] at hj
    split at hj
    · next hjk =>
      rw [hjk, hv]
      exact hj
    · exact h hj
  · exact h

theorem CacheOf.evict (k : κ) : CacheOf m (cache.delete k) := by
  intro j w hj
  rw [get_delete] at hj
  split at hj
  · cases hj
  · exact h hj

end OrderedMap
