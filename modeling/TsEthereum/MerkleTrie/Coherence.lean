-- SUMMARY: The checkpoint database against a stack of overlays: when its read cache never answers with an overwritten value.
import TsEthereum.MerkleTrie.CheckpointDB

/-!
# Coherence of the checkpoint database

Without its cache the database is an overlay stack, read for read: the values that
`get` keeps in the innermost diff are seen there anyway. The cache is asked
first, so all depends on whether a cached value is still the one on top; it is,
as long as the writes that go past the cache leave cached keys as they are.
-/

open List Option Function

namespace CheckpointDB

open BatchDBOp

open OverlayStack (Op nesting Balanced)

variable {L : LRUCache}

/-- The overlay stack that the database and the diffs are. -/
def overlays (s : CheckpointDB L) : OverlayStack Bytes Bytes where
  base := s.db.get
  overlays := s.checkpoints.map (fun c => c.keyValueMap.get)

def cached (s : CheckpointDB L) (key : Bytes) : Option Bytes :=
  s._cache.bind (L.peek · key)

/-- What the call means on an overlay stack. -/
def Call.ops : Call → List (Op Bytes Bytes)
  | .put key value => [.write key (some value)]
  | .del key => [.write key none]
  | .batch opStack => opStack.map (fun op => .write op.key op.value)
  | .get _ => []
  | .checkpoint _ => [.checkpoint]
  | .commit => [.commit]
  | .revert => [.revert]

/-! ## Effects on the overlays -/

@[simp] theorem overlays_writeCache (s : CheckpointDB L) (key : Bytes) (value : Option Bytes) :
    (s.writeCache key value).overlays = s.overlays := by
  unfold writeCache
  split <;> rfl

@[simp] theorem overlays_setCache (s : CheckpointDB L) (key : Bytes) (value : Option Bytes) :
    (s.setCache key value).overlays = s.overlays := rfl

variable {s : CheckpointDB L}

theorem hasCheckpoints_eq_false : s.hasCheckpoints = false ↔ s.checkpoints = [] := by
  simp [hasCheckpoints]

theorem setDiff_of_nil (h : s.checkpoints = []) (key : Bytes) (value : Option Bytes) :
    s.setDiff key value = s := by
  unfold setDiff
  rw [h]

theorem overlays_setDiff (h : s.checkpoints ≠ []) (key : Bytes) (value : Option Bytes) :
    (s.setDiff key value).overlays = s.overlays.write key value := by
  unfold setDiff
  split
  · rename_i hnil
    exact absurd hnil h
  · rename_i c cs hcons
    have hmap : (c.keyValueMap.set key value).get =
        update c.keyValueMap.get key (some value) := by
      funext k
      simp [update_apply]
    simp only [overlays, hcons, map_cons, OverlayStack.write, hmap]

theorem overlays_put (s : CheckpointDB L) (key value : Bytes) :
    (s.put key value).overlays = s.overlays.write key (some value) := by
  unfold put
  split
  · rename_i hopen
    exact overlays_setDiff (by simpa [hasCheckpoints] using hopen) key (some value)
  · rename_i hclosed
    have hnil : s.checkpoints = [] := by simpa [hasCheckpoints] using hclosed
    have hmap : (s.db.set key value).get = update s.db.get key (some value) := by
      funext k
      simp [update_apply]
    rw [overlays_writeCache]
    simp only [overlays, hnil, map_nil, OverlayStack.write, hmap]

theorem overlays_del (s : CheckpointDB L) (key : Bytes) :
    (s.del key).overlays = s.overlays.write key none := by
  unfold del
  split
  · rename_i hopen
    exact overlays_setDiff (by simpa [hasCheckpoints] using hopen) key none
  · rename_i hclosed
    have hnil : s.checkpoints = [] := by simpa [hasCheckpoints] using hclosed
    have hmap : (s.db.delete key).get = update s.db.get key none := by
      funext k
      simp [update_apply]
    rw [overlays_writeCache]
    simp only [overlays, hnil, map_nil, OverlayStack.write, hmap]

theorem overlays_apply (s : CheckpointDB L) (op : BatchDBOp) :
    (s.apply op).overlays = s.overlays.write op.key op.value := by
  cases op with
  | put key value => exact overlays_put s key value
  | del key => exact overlays_del s key

/-- A batch is its writes one by one, also where it goes to the database at once. -/
theorem overlays_batch (s : CheckpointDB L) (ops : List BatchDBOp) : (s.batch ops).overlays =
      ops.foldl (fun (o : OverlayStack Bytes Bytes) op => o.write op.key op.value) s.overlays := by
  unfold batch
  split
  · clear * -
    induction ops generalizing s with
    | nil => rfl
    | cons op ops ih =>
      simp only [foldl_cons, ih, overlays_apply]
  · rename_i hclosed
    have hnil : s.checkpoints = [] := by simpa [hasCheckpoints] using hclosed
    simp only [overlays, hnil, map_nil]
    generalize s.db = db
    induction ops generalizing db with
    | nil => rfl
    | cons op ops ih =>
      have hwrite : (db.batchOp op).get = update db.get op.key op.value := by
        funext k
        simp [update_apply]
      simp only [MapDB.batch_cons, foldl_cons, ih, hwrite, OverlayStack.write]

theorem get_dumpInto (keyValueMap current : OrderedMap Bytes (Option Bytes)) (k : Bytes) :
    (dumpInto keyValueMap current).get k = (keyValueMap.get k).orElse fun _ => current.get k := by
  have hread := OrderedMap.read_foldl_entries
    (fun (m : OrderedMap Bytes (Option Bytes)) e => m.set e.1 e.2) OrderedMap.get some
    (fun m e k => OrderedMap.get_set m e.1 k e.2) keyValueMap current k
  unfold dumpInto
  rw [hread]
  cases keyValueMap.get k <;> rfl

theorem get_flush (keyValueMap : OrderedMap Bytes (Option Bytes)) (db : MapDB) (k : Bytes) :
    (db.batch (keyValueMap.entries.map flushOp)).get k = (keyValueMap.get k).getD (db.get k) := by
  have hflush (d : MapDB) (e : Bytes × Option Bytes) (k : Bytes) :
      (d.batchOp (flushOp e)).get k = if k = e.1 then e.2 else d.get k := by
    obtain ⟨key, value⟩ := e
    cases value with
    | none => exact MapDB.get_batchOp d (.del key) k
    | some v => exact MapDB.get_batchOp d (.put key v) k
  have hread := OrderedMap.read_foldl_entries
    (fun (d : MapDB) e => d.batchOp (flushOp e)) OrderedMap.get id hflush keyValueMap db k
  rw [MapDB.batch, List.foldl_map, hread, Option.map_id_fun, id]

/-- A commit merges the innermost diff into what is below it. -/
theorem overlays_commit (s : CheckpointDB L) : s.commit.map overlays = s.overlays.step .commit := by
  unfold commit
  split
  · rename_i hnil
    simp [overlays, hnil, OverlayStack.step]
  · rename_i c hone
    have hbatch : (({ s with checkpoints := [] } : CheckpointDB L).batch
        (c.keyValueMap.entries.map flushOp)).overlays =
        ⟨(s.db.batch (c.keyValueMap.entries.map flushOp)).get, []⟩ := rfl
    have hflush : (s.db.batch (c.keyValueMap.entries.map flushOp)).get =
        fun k => (c.keyValueMap.get k).getD (s.db.get k) := by
      funext k
      exact get_flush c.keyValueMap s.db k
    rw [map_some, hbatch, hflush]
    simp only [OverlayStack.step, overlays, hone, map_cons, map_nil]
  · rename_i c current cs htwo
    have hdump : (dumpInto c.keyValueMap current.keyValueMap).get =
        fun k => (c.keyValueMap.get k).orElse fun _ => current.keyValueMap.get k := by
      funext k
      exact get_dumpInto c.keyValueMap current.keyValueMap k
    simp only [map_some, OverlayStack.step, overlays, htwo, map_cons, hdump]

theorem overlays_revert (s : CheckpointDB L) :
    (s.revert.map Prod.snd).map overlays = s.overlays.step .revert := by
  unfold revert
  split
  · rename_i hnil
    simp [overlays, hnil, OverlayStack.step]
  · rename_i c cs hcons
    simp [overlays, hcons, OverlayStack.step]

/-! ## Reads -/

variable {key : Bytes}

theorem findDiff_eq_none {cs : List Checkpoint} :
    findDiff cs key = none ↔ ∀ c ∈ cs, c.keyValueMap.get key = none := by
  induction cs with
  | nil => simp [findDiff]
  | cons c cs ih =>
    simp only [findDiff, forall_mem_cons, ← ih]
    cases c.keyValueMap.get key <;> simp

theorem lookup_overlays (s : CheckpointDB L) (key : Bytes) :
    s.overlays.lookup key = (findDiff s.checkpoints key).getD (s.db.get key) := by
  unfold OverlayStack.lookup overlays
  generalize s.checkpoints = cs
  induction cs with
  | nil => rfl
  | cons c cs ih =>
    simp only [map_cons, OverlayStack.lookupIn, ih, findDiff]
    cases c.keyValueMap.get key <;> rfl

/-- A key in no diff is seen the same at every depth. -/
theorem levels_of_findDiff (h : findDiff s.checkpoints key = none) :
    ∀ m ∈ s.overlays.levels, m key = s.db.get key := by
  apply OverlayStack.eq_base_of_mem_levels
  intro o ho
  obtain ⟨c, hc, rfl⟩ := mem_map.mp ho
  exact findDiff_eq_none.mp h c hc

/-- The three ways through a `get`: the cache has the key, a diff has it, or it is looked
up from disk and kept. -/
inductive GetCase (s : CheckpointDB L) (key : Bytes) : Option Bytes × CheckpointDB L → Prop
  | hit {v s'} : s.cached key = some v → s'.overlays = s.overlays → s'.cached = s.cached →
      GetCase s key (some v, s')
  | diff {x s'} : s.cached key = none → findDiff s.checkpoints key = some x →
      s'.overlays = s.overlays → s'.cached = s.cached → GetCase s key (x, s')
  | disk {s' : CheckpointDB L} : s.cached key = none → findDiff s.checkpoints key = none →
      s'.overlays.levels = s.overlays.levels →
      (∀ k v, s'.cached k = some v → if k = key then s.db.get key = some v else
        s.cached k = some v) → GetCase s key (s.db.get key, s')

theorem readCache_fst (hL : L.Lawful) (s : CheckpointDB L) (key : Bytes) :
    (s.readCache key).1 = s.cached key := by
  unfold readCache cached
  cases s._cache with
  | none => rfl
  | some c => exact hL.get_value c key

theorem cached_readCache (hL : L.Lawful) (s : CheckpointDB L) (key : Bytes) :
    (s.readCache key).2.cached = s.cached := by
  funext k
  unfold readCache cached
  cases hc : s._cache with
  | none => simp [hc]
  | some c => exact hL.peek_get c key k

theorem readCache_disk (s : CheckpointDB L) (key : Bytes) :
    (s.readCache key).2.checkpoints = s.checkpoints ∧ (s.readCache key).2.db = s.db := by
  unfold readCache
  cases s._cache with
  | none => exact ⟨rfl, rfl⟩
  | some c => exact ⟨rfl, rfl⟩

theorem overlays_readCache (s : CheckpointDB L) (key : Bytes) :
    (s.readCache key).2.overlays = s.overlays := by
  obtain ⟨hcheckpoints, hdb⟩ := s.readCache_disk key
  unfold overlays
  rw [hcheckpoints, hdb]

variable {k v : Bytes}

theorem cached_setCache (hL : L.Lawful) {value : Option Bytes}
    (h : (s.setCache key value).cached k = some v) :
    if k = key then value = some v else s.cached k = some v := by
  unfold setCache cached at h
  unfold cached
  cases hc : s._cache with
  | none => simp [hc] at h
  | some c =>
    simp only [hc, map_some, bind_some] at h
    exact hL.peek_set c key value k v h

theorem cached_setDiff (s : CheckpointDB L) (key : Bytes) (value : Option Bytes) :
    (s.setDiff key value).cached = s.cached := by
  unfold setDiff
  split <;> rfl

theorem levels_readDisk (h : findDiff s.checkpoints key = none) :
    (s.readDisk key).2.overlays.levels = s.overlays.levels := by
  have hlookup : s.overlays.lookup key = s.db.get key := by
    rw [lookup_overlays, h]
    rfl
  dsimp only [readDisk]
  by_cases hopen : s.checkpoints = []
  · rw [setDiff_of_nil (by exact hopen)]
    rfl
  · rw [overlays_setDiff (by exact hopen), overlays_setCache, ← hlookup]
    exact s.overlays.levels_write_lookup key

theorem cached_readDisk (hL : L.Lawful) (h : (s.readDisk key).2.cached k = some v) :
    if k = key then s.db.get key = some v else s.cached k = some v := by
  unfold readDisk at h
  rw [cached_setDiff] at h
  exact cached_setCache hL h

theorem get_cases (hL : L.Lawful) (s : CheckpointDB L) (key : Bytes) :
    GetCase s key (s.get key) := by
  have hfst := readCache_fst hL s key
  have hcached := cached_readCache hL s key
  have hoverlays := s.overlays_readCache key
  obtain ⟨hcheckpoints, hdb⟩ := s.readCache_disk key
  unfold get
  split
  · rename_i v s' hread
    rw [hread] at hfst hcached hoverlays
    exact .hit hfst.symm hoverlays hcached
  · rename_i s' hread
    rw [hread] at hfst hcached hoverlays hcheckpoints hdb
    simp only at hfst hcached hoverlays hcheckpoints hdb
    split
    · rename_i x hfind
      rw [hcheckpoints] at hfind
      exact .diff hfst.symm hfind hoverlays hcached
    · rename_i hfind
      have hfind' := hcheckpoints ▸ hfind
      have hlevels : (s'.readDisk key).2.overlays.levels = s.overlays.levels := by
        rw [levels_readDisk hfind, hoverlays]
      have hvalue : s'.readDisk key = (s.db.get key, (s'.readDisk key).2) := by
        rw [← hdb]
        rfl
      rw [hvalue]
      refine .disk hfst.symm hfind' hlevels ?_
      intro k v hv
      have hkept := cached_readDisk hL hv
      rw [hdb, hcached] at hkept
      exact hkept

/-- A read answers from the cache, else what is seen on top. -/
theorem get_fst (hL : L.Lawful) (s : CheckpointDB L) (key : Bytes) :
    (s.get key).1 = match s.cached key with
      | some v => some v
      | none => s.overlays.lookup key := by
  generalize hr : s.get key = r
  have hcases := get_cases hL s key
  rw [hr] at hcases
  cases hcases with
  | hit hcached _ _ => rw [hcached]
  | diff hcached hfind _ _ =>
    rw [hcached, lookup_overlays, hfind]
    rfl
  | disk hcached hfind _ _ =>
    rw [hcached, lookup_overlays, hfind]
    rfl

theorem levels_get (hL : L.Lawful) (s : CheckpointDB L) (key : Bytes) :
    (s.get key).2.overlays.levels = s.overlays.levels := by
  generalize hr : s.get key = r
  have hcases := get_cases hL s key
  rw [hr] at hcases
  cases hcases with
  | hit _ hoverlays _ => rw [hoverlays]
  | diff _ _ hoverlays _ => rw [hoverlays]
  | disk _ _ hlevels _ => exact hlevels

/-! ## The database is an overlay stack -/

theorem run_writes (o : OverlayStack Bytes Bytes) (ops : List BatchDBOp) :
    o.run (ops.map (fun op => .write op.key op.value)) =
      some (ops.foldl (fun o op => o.write op.key op.value) o) := by
  induction ops generalizing o with
  | nil => rfl
  | cons op ops ih => exact ih (o.write op.key op.value)

/-- Whatever the cache does, a call has the effect of its operations on what is seen at
every depth. -/
theorem levels_call (hL : L.Lawful) (s : CheckpointDB L) (c : Call) :
    (s.call c).map (fun s' => s'.overlays.levels) =
      OverlayStack.snapshotRun s.overlays.levels c.ops := by
  rw [← OverlayStack.levels_run]
  cases c with
  | put key value =>
    simp only [call, map_some, overlays_put]
    rfl
  | del key =>
    simp only [call, map_some, overlays_del]
    rfl
  | batch ops =>
    simp only [call, map_some, overlays_batch, Call.ops, run_writes]
  | get key =>
    simp only [call, map_some, levels_get hL]
    rfl
  | checkpoint root =>
    simp only [call, map_some]
    rfl
  | commit =>
    have hcommit := congrArg (Option.map OverlayStack.levels) s.overlays_commit
    simp only [call, Call.ops, OverlayStack.run]
    cases h : s.overlays.step .commit <;> simp_all
  | revert =>
    have hrevert := congrArg (Option.map OverlayStack.levels) s.overlays_revert
    simp only [call, Call.ops, OverlayStack.run]
    cases h : s.overlays.step .revert <;> simp_all

theorem levels_run (hL : L.Lawful) (s : CheckpointDB L) (cs : List Call) :
    (s.run cs).map (fun s' => s'.overlays.levels) =
      OverlayStack.snapshotRun s.overlays.levels (cs.flatMap Call.ops) := by
  induction cs generalizing s with
  | nil => rfl
  | cons c cs ih =>
    have hcall := levels_call hL s c
    simp only [run, flatMap_cons, OverlayStack.snapshotRun_append, ← hcall]
    cases s.call c with
    | none => rfl
    | some s' => exact ih s'

/-! ## The cache -/

/-- A cached value is the one seen at every depth. -/
def CacheCurrent (s : CheckpointDB L) : Prop :=
  ∀ k v, s.cached k = some v → ∀ m ∈ s.overlays.levels, m k = some v

def Call.writes : Call → List BatchDBOp
  | .put key value => [.put key value]
  | .del key => [.del key]
  | .batch opStack => opStack
  | .get _ | .checkpoint _ | .commit | .revert => []

/-- Whether the call writes without telling the cache. -/
def bypassesCache (s : CheckpointDB L) : Call → Bool
  | .put _ _ | .del _ => s.hasCheckpoints
  | .batch _ => true
  | .get _ | .checkpoint _ | .commit | .revert => false

/-- A write past the cache leaves every cached key with its cached value. -/
def keepsCache (s : CheckpointDB L) (c : Call) : Bool :=
  !s.bypassesCache c || c.writes.all fun op =>
    (s.cached op.key).all fun v => BatchDBOp.lastWrite c.writes op.key == some (some v)

variable {c : Call}

theorem keepsCache_iff (h : s.bypassesCache c = true) :
    s.keepsCache c = true ↔ ∀ op ∈ c.writes, ∀ v, s.cached op.key = some v →
      lastWrite c.writes op.key = some (some v) := by
  simp [keepsCache, h, Option.all_eq_true]

theorem cached_writeCache (hL : L.Lawful) {value : Option Bytes}
    (h : (s.writeCache key value).cached k = some v) :
    if k = key then value = some v else s.cached k = some v := by
  unfold writeCache cached at h
  unfold cached
  cases hc : s._cache with
  | none => simp [hc] at h
  | some c =>
    simp only [hc] at h
    exact hL.peek_set c key value k v h

theorem cached_apply (h : s.hasCheckpoints = true) (op : BatchDBOp) :
    (s.apply op).cached = s.cached := by
  cases op with
  | put key value =>
    simp only [apply, put, h, if_true]
    exact cached_setDiff s key (some value)
  | del key =>
    simp only [apply, del, h, if_true]
    exact cached_setDiff s key none

theorem hasCheckpoints_setDiff (s : CheckpointDB L) (key : Bytes) (value : Option Bytes) :
    (s.setDiff key value).hasCheckpoints = s.hasCheckpoints := by
  unfold setDiff hasCheckpoints
  split
  · rfl
  · rename_i c cs hcons
    simp [hcons]

theorem hasCheckpoints_apply (h : s.hasCheckpoints = true) (op : BatchDBOp) :
    (s.apply op).hasCheckpoints = true := by
  cases op with
  | put key value =>
    simp only [apply, put, h, if_true, hasCheckpoints_setDiff]
  | del key =>
    simp only [apply, del, h, if_true, hasCheckpoints_setDiff]

theorem cached_batch (s : CheckpointDB L) (ops : List BatchDBOp) :
    (s.batch ops).cached = s.cached := by
  unfold batch
  split
  · rename_i hopen
    induction ops generalizing s with
    | nil => rfl
    | cons op ops ih =>
      rw [foldl_cons, ih _ (hasCheckpoints_apply hopen op), cached_apply hopen]
  · rfl

variable {s' : CheckpointDB L}

/-- The writes of a call that go past the cache leave it alone. -/
theorem cached_of_bypasses (h : s.bypassesCache c = true) (hcall : s.call c = some s') :
    s'.cached = s.cached := by
  cases c with
  | put key value =>
    obtain rfl := some.inj hcall
    exact cached_apply h (.put key value)
  | del key =>
    obtain rfl := some.inj hcall
    exact cached_apply h (.del key)
  | batch ops =>
    obtain rfl := some.inj hcall
    exact cached_batch s ops
  | get _ => cases h
  | checkpoint _ => cases h
  | commit => cases h
  | revert => cases h

theorem cached_commit (h : s.commit = some s') : s'.cached = s.cached := by
  unfold commit at h
  split at h
  · cases h
  · obtain rfl := some.inj h
    rw [cached_batch]
    rfl
  · obtain rfl := some.inj h
    rfl

theorem snapshotRun_writes (m : Bytes → Option Bytes) (ms : List (Bytes → Option Bytes))
    (ops : List BatchDBOp) :
    OverlayStack.snapshotRun (m :: ms) (ops.map (fun op => .write op.key op.value)) =
      some ((fun k => (lastWrite ops k).getD (m k)) :: ms) := by
  induction ops generalizing m with
  | nil => rfl
  | cons op ops ih =>
    simp only [map_cons, OverlayStack.snapshotRun, OverlayStack.snapshotStep, bind_some,
      ih, Option.some.injEq, List.cons.injEq, and_true]
    funext k
    simp only [lastWrite]
    cases lastWrite ops k with
    | some x => rfl
    | none =>
      by_cases hk : op.key = k
      · subst hk
        simp
      · simp [hk, update_of_ne (Ne.symm hk)]

/-- After a call that writes, its writes are seen on top and nothing has changed below. -/
theorem levels_writes (hL : L.Lawful)
    (hops : c.ops = c.writes.map (fun op => .write op.key op.value)) (hcall : s.call c = some s')
    {m : Bytes → Option Bytes} {ms : List (Bytes → Option Bytes)}
    (hlevels : s.overlays.levels = m :: ms) :
    s'.overlays.levels = (fun k => (lastWrite c.writes k).getD (m k)) :: ms := by
  have hrun := levels_call hL s c
  rw [hcall, hops, hlevels, snapshotRun_writes, map_some] at hrun
  exact some.inj hrun

theorem cacheCurrent_bypassing (hL : L.Lawful) (hs : s.CacheCurrent)
    (hops : c.ops = c.writes.map (fun op => .write op.key op.value))
    (hbypass : s.bypassesCache c = true) (hkeep : s.keepsCache c = true)
    (hcall : s.call c = some s') : s'.CacheCurrent := by
  obtain ⟨ms, hlevels⟩ := s.overlays.levels_eq_cons
  intro k v hv
  rw [cached_of_bypasses hbypass hcall] at hv
  have hold := hs k v hv
  rw [levels_writes hL hops hcall hlevels]
  rw [hlevels] at hold
  intro m hm
  rcases mem_cons.mp hm with rfl | hm
  · cases hlast : lastWrite c.writes k with
    | none => simpa [hlast] using hold _ mem_cons_self
    | some x =>
      have hwritten : ¬ ∀ op ∈ c.writes, op.key ≠ k := by
        rw [← lastWrite_eq_none, hlast]
        exact some_ne_none x
      push Not at hwritten
      obtain ⟨op, hop, rfl⟩ := hwritten
      have hvalue := (keepsCache_iff hbypass).mp hkeep op hop v hv
      rw [hlast] at hvalue
      simpa [hlast] using some.inj hvalue
  · exact hold m (mem_cons_of_mem _ hm)

/-- A `put` or `del` on the database itself updates the cache. -/
theorem cacheCurrent_through (hL : L.Lawful) {op : BatchDBOp} (hs : s.CacheCurrent)
    (hops : c.ops = c.writes.map (fun op => .write op.key op.value)) (hwrites : c.writes = [op])
    (hclosed : s.checkpoints = []) (hcall : s.call c = some s')
    (hcached : ∀ k v, s'.cached k = some v →
      if k = op.key then op.value = some v else s.cached k = some v) : s'.CacheCurrent := by
  have hlevels : s.overlays.levels = [s.overlays.lookup] := by
    simp only [OverlayStack.levels, OverlayStack.lookup, overlays, hclosed, map_nil]
    rfl
  intro k v hv m hm
  rw [levels_writes hL hops hcall hlevels, hwrites] at hm
  obtain rfl := mem_singleton.mp hm
  have hnew := hcached k v hv
  by_cases hk : k = op.key
  · rw [if_pos hk] at hnew
    simpa [lastWrite, hk] using hnew
  · rw [if_neg hk] at hnew
    have hold := hs k v hnew _ (hlevels ▸ mem_cons_self)
    simpa [lastWrite, Ne.symm hk] using hold

theorem cacheCurrent_get (hL : L.Lawful) (hs : s.CacheCurrent) (key : Bytes) :
    (s.get key).2.CacheCurrent := by
  generalize hr : s.get key = r
  have hcases := get_cases hL s key
  rw [hr] at hcases
  intro k v hv
  cases hcases with
  | hit _ hoverlays hcached => exact hoverlays ▸ hs k v (hcached ▸ hv)
  | diff _ _ hoverlays hcached => exact hoverlays ▸ hs k v (hcached ▸ hv)
  | disk _ hfind hlevels hcached =>
    have hnew := hcached k v hv
    intro m hm
    rw [hlevels] at hm
    by_cases hk : k = key
    · subst hk
      rw [if_pos rfl] at hnew
      rw [levels_of_findDiff hfind m hm, hnew]
    · rw [if_neg hk] at hnew
      exact hs k v hnew m hm

/-- Opening and closing checkpoints brings no new map into sight. -/
theorem cacheCurrent_nesting (hL : L.Lawful) {op : Op Bytes Bytes} (hs : s.CacheCurrent)
    (hops : c.ops = [op]) (hop : ∀ k x, op ≠ .write k x) (hcall : s.call c = some s')
    (hcached : s'.cached = s.cached) : s'.CacheCurrent := by
  have hrun := levels_call hL s c
  rw [hcall, hops] at hrun
  have hstep : OverlayStack.snapshotStep s.overlays.levels op = some s'.overlays.levels := by
    simpa [OverlayStack.snapshotRun] using hrun.symm
  have hsub : s'.overlays.levels ⊆ s.overlays.levels :=
    OverlayStack.snapshotStep_subset hop hstep
  intro k v hv m hm
  exact hs k v (hcached ▸ hv) m (hsub hm)

theorem cacheCurrent_call (hL : L.Lawful) (hs : s.CacheCurrent) (hkeep : s.keepsCache c = true)
    (hcall : s.call c = some s') : s'.CacheCurrent := by
  cases c with
  | put key value =>
    cases hopen : s.hasCheckpoints with
    | true => exact cacheCurrent_bypassing (c := .put key value) hL hs rfl hopen hkeep hcall
    | false =>
      refine cacheCurrent_through hL hs rfl rfl (hasCheckpoints_eq_false.mp hopen) hcall ?_
      intro k v hv
      obtain rfl := some.inj hcall
      simp only [put, hopen, Bool.false_eq_true, if_false] at hv
      have hnew := cached_writeCache hL hv
      exact hnew
  | del key =>
    cases hopen : s.hasCheckpoints with
    | true => exact cacheCurrent_bypassing (c := .del key) hL hs rfl hopen hkeep hcall
    | false =>
      refine cacheCurrent_through hL hs rfl rfl (hasCheckpoints_eq_false.mp hopen) hcall ?_
      intro k v hv
      obtain rfl := some.inj hcall
      simp only [del, hopen, Bool.false_eq_true, if_false] at hv
      have hnew := cached_writeCache hL hv
      exact hnew
  | batch ops => exact cacheCurrent_bypassing hL hs rfl rfl hkeep hcall
  | get key =>
    obtain rfl := some.inj hcall
    exact cacheCurrent_get hL hs key
  | checkpoint root =>
    refine cacheCurrent_nesting hL hs rfl (fun k x h => by cases h) hcall ?_
    obtain rfl := some.inj hcall
    rfl
  | commit => exact cacheCurrent_nesting hL hs rfl (fun k x h => by cases h) hcall (cached_commit hcall)
  | revert =>
    refine cacheCurrent_nesting hL hs rfl (fun k x h => by cases h) hcall ?_
    simp only [call, revert] at hcall
    split at hcall
    · cases hcall
    · obtain rfl := some.inj hcall
      rfl

/-- With a current cache every read is the value on top. -/
theorem CacheCurrent.get_fst (hL : L.Lawful) (hs : s.CacheCurrent) (key : Bytes) :
    (s.get key).1 = s.overlays.lookup key := by
  obtain ⟨ms, hlevels⟩ := s.overlays.levels_eq_cons
  rw [CheckpointDB.get_fst hL]
  cases hcached : s.cached key with
  | none => rfl
  | some v => exact (hs key v hcached _ (hlevels ▸ mem_cons_self)).symm

/-- If the reads after a call are right, its writes have left the cached keys alone. -/
theorem keepsCache_of_reads (hL : L.Lawful) (hcall : s.call c = some s')
    (hreads : ∀ k, (s'.get k).1 = s'.overlays.lookup k) : s.keepsCache c = true := by
  cases hbypass : s.bypassesCache c with
  | false => simp [keepsCache, hbypass]
  | true =>
    rw [keepsCache_iff hbypass]
    intro op hop v hv
    have hops : c.ops = c.writes.map (fun op => .write op.key op.value) := by
      cases c <;> first | rfl | cases hbypass
    obtain ⟨ms, hlevels⟩ := s.overlays.levels_eq_cons
    obtain ⟨ms', hlevels'⟩ := s'.overlays.levels_eq_cons
    have htop : s'.overlays.lookup =
        fun k => (lastWrite c.writes k).getD (s.overlays.lookup k) := by
      rw [levels_writes hL hops hcall hlevels] at hlevels'
      exact (List.cons.inj hlevels').1.symm
    have hread := hreads op.key
    rw [CheckpointDB.get_fst hL, cached_of_bypasses hbypass hcall, hv, htop] at hread
    cases hlast : lastWrite c.writes op.key with
    | none => exact absurd rfl (lastWrite_eq_none.mp hlast op hop)
    | some x =>
      simp only [hlast, getD_some] at hread
      rw [hread]

end CheckpointDB
