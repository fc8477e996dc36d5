-- SUMMARY: Runs of the checkpoint database: exactly the runs that write past no cached key read what the overlay stack has.
import TsEthereum.MerkleTrie.Coherence

/-!
# Runs of the checkpoint database

Every well nested run goes through, with or without a cache. Its reads are right
after every call exactly if each call keeps the cache (`keepsCache`); without a
cache they always are.
-/

open List Option Bool

namespace CheckpointDB

open OverlayStack (nesting Balanced)

variable {L : LRUCache}

/-- The predicate holds of every call and of the state in which it is made. -/
def onRun (p : CheckpointDB L → Call → Bool) (s : CheckpointDB L) : List Call → Bool
  | [] => true
  | c :: cs => p s c && (s.call c).all (onRun p · cs)

/-- After the calls `cs` on a new database, `s` is what the overlay stack `view` is after the
same operations. -/
structure MeansOverlays (db : MapDB) (cacheSize : Nat) (cs : List Call) (s : CheckpointDB L)
    (view : OverlayStack Bytes Bytes) : Prop where
  runs : run (new db cacheSize) cs = some s
  means : OverlayStack.run ⟨db.get, []⟩ (cs.flatMap Call.ops) = some view
  reads : ∀ k, (s.get k).1 = view.lookup k
  /-- With no checkpoint open, as after the commit of the outermost one. -/
  disk : s.checkpoints = [] → ∀ k, s.db.get k = view.lookup k
  /-- A revert goes back to what was read before the matching checkpoint. -/
  reverted : ∀ before root body, cs = before ++ .checkpoint root :: body ++ [.revert] →
    Balanced (body.flatMap Call.ops) →
    ∃ s' : CheckpointDB L, run (new db cacheSize) before = some s' ∧
      ∀ k, (s.get k).1 = (s'.get k).1

variable {s : CheckpointDB L} {cs : List Call}

theorem onRun_append_left {p : CheckpointDB L → Call → Bool} {ds : List Call}
    (h : s.onRun p (cs ++ ds) = true) : s.onRun p cs = true := by
  induction cs generalizing s with
  | nil => rfl
  | cons c cs ih =>
    simp only [cons_append, onRun, and_eq_true] at h ⊢
    refine ⟨h.1, ?_⟩
    cases hcall : s.call c with
    | none => rfl
    | some s' =>
      have hrest := h.2
      rw [hcall] at hrest
      exact ih hrest

section

variable (hL : L.Lawful)
include hL

/-- The database runs through what the overlay stack runs through. -/
theorem run_of_levels {view view' : OverlayStack Bytes Bytes}
    (hlevels : s.overlays.levels = view.levels)
    (hview : view.run (cs.flatMap Call.ops) = some view') :
    ∃ s', s.run cs = some s' ∧ s'.overlays.levels = view'.levels := by
  have hrun := levels_run hL s cs
  rw [hlevels, ← OverlayStack.levels_run, hview, map_some] at hrun
  obtain ⟨s', hs', hlevels'⟩ := map_eq_some_iff.mp hrun
  exact ⟨s', hs', hlevels'⟩

theorem cacheCurrent_run {s' : CheckpointDB L} (hs : s.CacheCurrent)
    (hkeep : s.onRun keepsCache cs = true) (hrun : s.run cs = some s') : s'.CacheCurrent := by
  induction cs generalizing s with
  | nil =>
    obtain rfl := some.inj hrun
    exact hs
  | cons c cs ih =>
    simp only [onRun, and_eq_true] at hkeep
    simp only [run] at hrun
    cases hcall : s.call c with
    | none =>
      rw [hcall] at hrun
      cases hrun
    | some s₁ =>
      rw [hcall] at hrun
      have hrest := hkeep.2
      rw [hcall] at hrest
      exact ih (cacheCurrent_call hL hs hkeep.1 hcall) hrest hrun

/-- If the reads are right all along the run, every call keeps the cache. -/
theorem onRun_of_reads (hs : s.CacheCurrent)
    (hreads : ∀ pre, pre <+: cs → ∀ s', s.run pre = some s' →
      ∀ k, (s'.get k).1 = s'.overlays.lookup k) : s.onRun keepsCache cs = true := by
  induction cs generalizing s with
  | nil => rfl
  | cons c cs ih =>
    simp only [onRun, and_eq_true]
    cases hcall : s.call c with
    | none =>
      refine ⟨?_, rfl⟩
      cases c with
      | put key value => cases hcall
      | del key => cases hcall
      | batch ops => cases hcall
      | get key => rfl
      | checkpoint root => rfl
      | commit => rfl
      | revert => rfl
    | some s₁ =>
      have hrun : s.run [c] = some s₁ := by simp [run, hcall]
      have hkeep := keepsCache_of_reads hL hcall
        (hreads [c] (prefix_append [c] cs) s₁ hrun)
      refine ⟨hkeep, ih (cacheCurrent_call hL hs hkeep hcall) ?_⟩
      intro pre hpre s' hs'
      refine hreads (c :: pre) (cons_prefix_cons.mpr ⟨rfl, hpre⟩) s' ?_
      simp only [run, hcall, bind_some, hs']

theorem cacheCurrent_new (db : MapDB) (cacheSize : Nat) :
    (new db cacheSize : CheckpointDB L).CacheCurrent := by
  intro k v hv
  unfold cached new at hv
  split at hv
  · simp [hL.peek_new] at hv
  · cases hv

/-- The reads after a run that keeps the cache. -/
theorem reads_of_keepsCache {db : MapDB} {cacheSize : Nat} {view : OverlayStack Bytes Bytes}
    (hkeep : (new db cacheSize : CheckpointDB L).onRun keepsCache cs = true)
    (hrun : run (new db cacheSize) cs = some s) (hlevels : s.overlays.levels = view.levels)
    (k : Bytes) : (s.get k).1 = view.lookup k := by
  have hcurrent := cacheCurrent_run hL (cacheCurrent_new hL db cacheSize) hkeep hrun
  rw [hcurrent.get_fst hL, OverlayStack.lookup_of_levels hlevels]

/-- Well nested calls that keep the cache have the meaning of the overlay stack. -/
theorem meansOverlays_of_keepsCache {db : MapDB} {cacheSize : Nat}
    (hnest : (nesting 0 (cs.flatMap Call.ops)).isSome)
    (hkeep : (new db cacheSize : CheckpointDB L).onRun keepsCache cs = true) :
    ∃ (s : CheckpointDB L) (view : OverlayStack Bytes Bytes),
      MeansOverlays db cacheSize cs s view := by
  obtain ⟨d, hd⟩ := isSome_iff_exists.mp hnest
  obtain ⟨view, hview, -⟩ := OverlayStack.run_of_nesting (s := ⟨db.get, []⟩) hd
  obtain ⟨s, hrun, hlevels⟩ := run_of_levels (s := new db cacheSize) hL rfl hview
  refine ⟨s, view, hrun, hview, reads_of_keepsCache hL hkeep hrun hlevels, ?_, ?_⟩
  · intro hclosed k
    have hnil : s.overlays.overlays = [] := by simp [overlays, hclosed]
    rw [← OverlayStack.lookup_of_levels hlevels, OverlayStack.lookup_of_overlays_nil hnil]
    rfl
  · rintro before root body rfl hbody
    rw [append_assoc] at hkeep hview
    rw [flatMap_append, OverlayStack.run_append] at hview
    cases hbefore : OverlayStack.run ⟨db.get, []⟩ (before.flatMap Call.ops) with
    | none =>
      rw [hbefore] at hview
      cases hview
    | some view' =>
      obtain ⟨s', hrun', hlevels'⟩ := run_of_levels (s := new db cacheSize) hL rfl hbefore
      have hback : view' = view := by
        have hreverted := view'.run_reverted hbody
        simp only [hbefore, bind_some, flatMap_append, cons_append,
          flatMap_cons, flatMap_nil, Call.ops, append_nil, nil_append] at hview
        exact some.inj (hreverted.symm.trans hview)
      subst hback
      refine ⟨s', hrun', fun k => ?_⟩
      rw [reads_of_keepsCache hL (onRun_append_left hkeep) hrun' hlevels']
      rw [← append_assoc] at hkeep
      exact reads_of_keepsCache hL hkeep hrun hlevels k

end

/-- The database has the meaning of the overlay stack all along a well nested run exactly if
no call of the run writes past a cached key. -/
theorem run_meansOverlays_iff (hL : L.Lawful) (db : MapDB) (cacheSize : Nat) {cs : List Call}
    (hnest : (nesting 0 (cs.flatMap Call.ops)).isSome) :
    (∀ pre, pre <+: cs → ∃ (s : CheckpointDB L) (view : OverlayStack Bytes Bytes),
      MeansOverlays db cacheSize pre s view) ↔
    (new db cacheSize : CheckpointDB L).onRun keepsCache cs = true := by
  constructor
  · intro h
    refine onRun_of_reads hL (cacheCurrent_new hL db cacheSize) ?_
    intro pre hpre s hs k
    obtain ⟨s', view, hmeans⟩ := h pre hpre
    obtain rfl : s = s' := some.inj (hs.symm.trans hmeans.runs)
    obtain ⟨s'', hrun, hlevels⟩ := run_of_levels (s := new db cacheSize) hL rfl hmeans.means
    obtain rfl : s = s'' := some.inj (hs.symm.trans hrun)
    rw [hmeans.reads k, OverlayStack.lookup_of_levels hlevels]
  · rintro hkeep pre ⟨rest, rfl⟩
    refine meansOverlays_of_keepsCache hL ?_ (onRun_append_left hkeep)
    rw [flatMap_append, OverlayStack.nesting_append] at hnest
    cases hpre : nesting 0 (pre.flatMap Call.ops) with
    | none =>
      rw [hpre] at hnest
      cases hnest
    | some d => rfl

end CheckpointDB

/-! ## A read cache -/

namespace LRUCache

/-- The entries of a bounded cache, the key used last in front. -/
def recency : LRUCache where
  State := Nat × List (Bytes × Bytes)
  new max := (max, [])
  get c k :=
    match OrderedMap.find k c.2 with
    | none => (none, c)
    | some v => (some v, (c.1, (k, v) :: c.2.filter (fun e => e.1 ≠ k)))
  peek c k := OrderedMap.find k c.2
  set c k x :=
    match x with
    | none => (c.1, c.2.filter (fun e => e.1 ≠ k))
    | some v => (c.1, ((k, v) :: c.2.filter (fun e => e.1 ≠ k)).take c.1)
  size c := c.2.length

theorem find_of_take {k v : Bytes} {n : Nat} {es : List (Bytes × Bytes)}
    (h : OrderedMap.find k (es.take n) = some v) : OrderedMap.find k es = some v := by
  induction es generalizing n with
  | nil => simp [OrderedMap.find] at h
  | cons e es ih =>
    cases n with
    | zero => simp [OrderedMap.find] at h
    | succ n =>
      simp only [take_succ_cons, OrderedMap.find] at h ⊢
      split
      · rename_i hk
        rwa [if_pos hk] at h
      · rename_i hk
        rw [if_neg hk] at h
        exact ih h

theorem recency_lawful : recency.Lawful where
  peek_new max k := rfl
  get_value c k := by
    simp only [recency]
    cases OrderedMap.find k c.2 <;> rfl
  peek_get c k k' := by
    simp only [recency]
    cases hfind : OrderedMap.find k c.2 with
    | none => rfl
    | some v =>
      simp only [OrderedMap.find, OrderedMap.find_filter]
      by_cases hk : k' = k
      · simp [hk, hfind]
      · simp [hk, Ne.symm hk]
  peek_set c k x k' v h := by
    cases x with
    | none =>
      have hfind := h
      simp only [recency, OrderedMap.find_filter] at hfind
      by_cases hk : k' = k
      · simp [hk] at hfind
      · simpa [recency, hk] using hfind
    | some w =>
      have htake : OrderedMap.find k' (((k, w) :: c.2.filter (fun e => e.1 ≠ k)).take c.1) =
          some v := h
      have hfind := find_of_take htake
      simp only [OrderedMap.find, OrderedMap.find_filter] at hfind
      by_cases hk : k' = k
      · simpa [hk] using hfind
      · simpa [recency, hk, Ne.symm hk] using hfind

end LRUCache

namespace CheckpointDB

/-- A run with a cache of one entry that meets the condition: the key read into the cache is
written with the value it has. -/
def sampleCalls : List Call :=
  [.put [1] [10], .checkpoint [0], .get [1], .put [2] [20], .checkpoint [0], .put [1] [10],
    .del [2], .get [2], .revert, .batch [.put [3] [30], .del [2]], .commit, .get [3]]

theorem run_meansOverlays_sample : (OverlayStack.nesting 0 (sampleCalls.flatMap Call.ops)).isSome ∧
    ∀ pre, pre <+: sampleCalls →
      ∃ (s : CheckpointDB LRUCache.recency) (view : OverlayStack Bytes Bytes),
        MeansOverlays .empty 1 pre s view :=
  ⟨by decide, (run_meansOverlays_iff LRUCache.recency_lawful .empty 1 (by decide)).mpr (by decide)⟩

/-- The value 10 is cached by the first write and shadows the one written under the
checkpoint. -/
def staleCalls : List Call := [.put [1] [10], .checkpoint [0], .put [1] [11]]

theorem stale_not_meansOverlays : (OverlayStack.nesting 0 (staleCalls.flatMap Call.ops)).isSome ∧
    ¬ ∃ (s : CheckpointDB LRUCache.recency) (view : OverlayStack Bytes Bytes),
      MeansOverlays .empty 1 staleCalls s view := by
  refine ⟨by decide, ?_⟩
  rintro ⟨s, view, hmeans⟩
  have hstale : ((run (L := LRUCache.recency) (new .empty 1) staleCalls).map
      (fun s => (s.get [1]).1)) = some (some [10]) := by decide
  have hwritten : ((OverlayStack.run ⟨(OrderedMap.empty : MapDB).get, []⟩ (staleCalls.flatMap Call.ops)).map
      (fun view => view.lookup [1])) = some (some [11]) := by decide
  rw [hmeans.runs, map_some] at hstale
  rw [hmeans.means, map_some] at hwritten
  have hread := hmeans.reads [1]
  rw [some.inj hstale, some.inj hwritten] at hread
  cases hread

end CheckpointDB
