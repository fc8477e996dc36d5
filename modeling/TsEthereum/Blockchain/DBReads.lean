-- SUMMARY: What orderly runs of the database manager keep: caches and reads in flight have the last values.
import TsEthereum.Blockchain.DBManager

/-!
# Reads and batches in flight

`Current` says that the batches on their way lead from the database to the last values and that
caches hold last values only; every orderly step keeps it. Once all calls have settled the
manager is `Calm`: any further reads find the last values.
-/

open List Option Bool

namespace DBManager

open OrderedMap

/-! ## Operations under distinct keys -/

/-- No two of the keys coincide in the database. -/
abbrev Distinct (used : Set DatabaseKey) : Prop := Set.InjOn DatabaseKey.baseKey used

theorem lastValue_append (ops ops' : List DBOp) (key : DatabaseKey) (init : Option Bytes) :
    lastValue (ops ++ ops') key init = lastValue ops' key (lastValue ops key init) := foldl_append

variable {key : DatabaseKey}

/-- Operations on other keys leave a value alone. -/
theorem lastValue_of_untouched {ops : List DBOp} (h : touches ops key = false) (init : Option Bytes) :
    lastValue ops key init = init := by
  induction ops generalizing init with
  | nil => rfl
  | cons op ops ih =>
    simp only [touches, any_cons, or_eq_false_iff, decide_eq_false_iff_not] at h
    have hrest := ih h.2 init
    simp only [lastValue, foldl_cons, if_neg h.1] at hrest ⊢
    exact hrest

/-- Where the key is written, what was there before does not matter. -/
theorem lastValue_of_touched {ops : List DBOp} (h : touches ops key = true)
    (init init' : Option Bytes) : lastValue ops key init = lastValue ops key init' := by
  induction ops generalizing init init' with
  | nil => cases h
  | cons op ops ih =>
    simp only [lastValue, foldl_cons]
    cases hrest : touches ops key with
    | true => exact ih hrest _ _
    | false =>
      simp only [touches, any_cons, or_eq_true, decide_eq_true_eq] at h hrest
      have hkey : op.key = key := h.resolve_right (fun hany => by simp [hrest] at hany)
      rw [if_pos hkey, if_pos hkey]

section Keys

variable {used : Set DatabaseKey} (hd : Distinct used)
include hd

/-- The database takes operations as they stand. -/
theorem foldl_writeOp {ops : List DBOp} (hops : ∀ op ∈ ops, op.key ∈ used) {key : DatabaseKey}
    (hkey : key ∈ used) (db : Bytes → Option Bytes) :
    ops.foldl writeOp db key.baseKey = lastValue ops key (db key.baseKey) := by
  induction ops generalizing db with
  | nil => rfl
  | cons op ops ih =>
    have hop : op.key.baseKey = key.baseKey ↔ op.key = key :=
      hd.eq_iff (hops op mem_cons_self) hkey
    have hone : writeOp db op key.baseKey = if op.key = key then op.value else db key.baseKey := by
      unfold writeOp
      rw [Function.update_apply]
      exact if_congr (eq_comm.trans hop) rfl rfl
    rw [foldl_cons, ih (fun op' hop' => hops op' (mem_cons_of_mem _ hop')), hone]
    rfl

/-- A cache follows the operations: what it had of a key is replaced by what is written. -/
theorem foldl_updateCache {ops : List DBOp} (hops : ∀ op ∈ ops, op.key ∈ used) {key : DatabaseKey}
    (hkey : key ∈ used) {name : CacheName} (hname : key.cacheString = some name) (caches : Caches) :
    ops.foldl updateCache caches name key.baseKey = lastValue ops key (caches name key.baseKey) := by
  induction ops generalizing caches with
  | nil => rfl
  | cons op ops ih =>
    have hone : updateCache caches op name key.baseKey =
        if op.key = key then op.value else caches name key.baseKey := by
      unfold updateCache
      by_cases hsame : op.key = key
      · rw [if_pos hsame, hsame, hname]
        exact if_pos ⟨rfl, rfl⟩
      · have hbase : ¬key.baseKey = op.key.baseKey := fun hbase =>
          hsame (hd (hops op mem_cons_self) hkey hbase.symm)
        rw [if_neg hsame]
        cases op.key.cacheString with
        | none => rfl
        | some other => exact if_neg (fun hboth => hbase hboth.2)
    rw [foldl_cons, ih (fun op' hop' => hops op' (mem_cons_of_mem _ hop')), hone]
    rfl

end Keys

/-! ## Batches that the database has not taken -/

/-- The operations on their way, in the order in which they were called. -/
def pendingOps (batches : List PendingBatch) : List DBOp :=
  (batches.filter (fun b => !b.written)).flatMap PendingBatch.ops

variable {b : PendingBatch}

theorem pendingOps_cons_written (h : b.written = true) (batches : List PendingBatch) :
    pendingOps (b :: batches) = pendingOps batches := by
  simp only [pendingOps, filter_cons, h, Bool.not_true, false_eq_true, if_false]

theorem pendingOps_cons_unwritten (h : b.written = false) (batches : List PendingBatch) :
    pendingOps (b :: batches) = b.ops ++ pendingOps batches := by
  simp only [pendingOps, filter_cons, h, Bool.not_false, if_true, flatMap_cons]

theorem pendingOps_append (batches batches' : List PendingBatch) :
    pendingOps (batches ++ batches') = pendingOps batches ++ pendingOps batches' := by
  simp only [pendingOps, filter_append, flatMap_append]

variable {batches : List PendingBatch}

/-- What is not on its way is not touched by it. -/
theorem touches_pendingOps (h : batches.all (fun b => b.written || !touches b.ops key) = true) :
    touches (pendingOps batches) key = false := by
  induction batches with
  | nil => rfl
  | cons b batches ih =>
    obtain ⟨hb, hrest⟩ := (and_eq_true _ _).mp h
    cases hw : b.written with
    | true =>
      rw [pendingOps_cons_written hw]
      exact ih hrest
    | false =>
      simp only [hw, Bool.false_or, not_eq_true'] at hb
      have hany := ih hrest
      rw [pendingOps_cons_unwritten hw]
      simp only [touches, any_append, or_eq_false_iff] at hb hany ⊢
      exact ⟨hb, hany⟩

variable {call : Nat}

/-- A batch that leaves a key alone changes nothing about it when it is written. -/
theorem writeBatch_of_untouched (db : Bytes → Option Bytes) {used : Set DatabaseKey}
    (hd : Distinct used) (hused : ∀ op ∈ nextWrite call batches, op.key ∈ used) (hkey : key ∈ used)
    (h : touches (nextWrite call batches) key = false) :
    (writeBatch call db batches).1 key.baseKey = db key.baseKey ∧
      ∀ value, lastValue (pendingOps (writeBatch call db batches).2) key value =
        lastValue (pendingOps batches) key value := by
  induction batches with
  | nil => exact ⟨rfl, fun _ => rfl⟩
  | cons b batches ih =>
    by_cases hit : b.call = call ∧ b.written = false
    · simp only [nextWrite, if_pos hit] at h hused
      simp only [writeBatch, if_pos hit]
      refine ⟨(foldl_writeOp hd hused hkey db).trans (lastValue_of_untouched h _), fun value => ?_⟩
      rw [pendingOps_cons_written rfl, pendingOps_cons_unwritten hit.2, lastValue_append,
        lastValue_of_untouched h]
    · simp only [nextWrite, if_neg hit] at h hused
      simp only [writeBatch, if_neg hit]
      obtain ⟨hdb, hpending⟩ := ih hused h
      refine ⟨hdb, fun value => ?_⟩
      cases hw : b.written with
      | true => rw [pendingOps_cons_written hw, pendingOps_cons_written hw, hpending]
      | false =>
        rw [pendingOps_cons_unwritten hw, pendingOps_cons_unwritten hw, lastValue_append,
          lastValue_append, hpending]

/-- Written in its turn, a batch only moves from what is on its way into the database. -/
theorem writeBatch_in_turn {db : Bytes → Option Bytes} {used : Set DatabaseKey} (hd : Distinct used)
    (hused : ∀ op ∈ nextWrite call batches, op.key ∈ used) (hkey : key ∈ used)
    (h : writesInTurn call batches = true) :
    lastValue (pendingOps (writeBatch call db batches).2) key
        ((writeBatch call db batches).1 key.baseKey) =
      lastValue (pendingOps batches) key (db key.baseKey) := by
  induction batches with
  | nil => rfl
  | cons b batches ih =>
    by_cases hit : b.call = call ∧ b.written = false
    · simp only [nextWrite, if_pos hit] at hused
      simp only [writeBatch, if_pos hit]
      rw [pendingOps_cons_written rfl, pendingOps_cons_unwritten hit.2, lastValue_append,
        foldl_writeOp hd hused hkey]
    · simp only [nextWrite, if_neg hit] at hused
      simp only [writesInTurn, if_neg hit, Bool.and_eq_true] at h
      have hrest := ih hused h.2
      simp only [writeBatch, if_neg hit]
      cases hw : b.written with
      | true =>
        rw [pendingOps_cons_written hw, pendingOps_cons_written hw]
        exact hrest
      | false =>
        rw [pendingOps_cons_unwritten hw, pendingOps_cons_unwritten hw, lastValue_append, lastValue_append]
        cases hb : touches b.ops key with
        | false =>
          rw [lastValue_of_untouched hb, lastValue_of_untouched hb]
          exact hrest
        | true =>
          -- the batch before it writes the key, so the one written now does not
          have hnext : touches (nextWrite call batches) key = false := by
            rw [hw, Bool.false_or, List.all_eq_true] at h
            rw [touches, List.any_eq_false]
            intro op hop hkeyed
            have hno := h.1 op hop
            rw [of_decide_eq_true hkeyed, hb] at hno
            cases hno
          obtain ⟨hdb, hpending⟩ := writeBatch_of_untouched db hd hused hkey hnext
          rw [hpending, hdb]

/-! ## Runs -/

/-- What is on its way leads from the database to the last values, and a cache that has a value,
or gets one from a read, has the last one. -/
structure Current (used : Set DatabaseKey) (last : DatabaseKey → Option Bytes) (s : DBManager) : Prop where
  stored : ∀ key ∈ used, lastValue (pendingOps s.batches) key (s._db key.baseKey) = last key
  cached : ∀ key ∈ used, ∀ value, s.fromCache key = some value → last key = some value
  filling : ∀ call g, s.gets.get call = some g → g.fills = true → g.read = some (last g.key)
  asked : ∀ call g, s.gets.get call = some g → g.key ∈ used
  written : ∀ b ∈ s.batches, ∀ op ∈ b.ops, op.key ∈ used

theorem fromCache_eq {s : DBManager} {value : Bytes} : s.fromCache key = some value ↔
      ∃ name, key.cacheString = some name ∧ s._cache name key.baseKey = some value := by
  unfold fromCache
  exact bind_eq_some_iff

theorem mem_nextWrite {op : DBOp} (h : op ∈ nextWrite call batches) :
    ∃ b ∈ batches, op ∈ b.ops := by
  induction batches with
  | nil => cases h
  | cons b batches ih =>
    unfold nextWrite at h
    split at h
    · exact ⟨b, mem_cons_self, h⟩
    · obtain ⟨b', hb', hop⟩ := ih h
      exact ⟨b', mem_cons_of_mem _ hb', hop⟩

theorem mem_writeBatch {db : Bytes → Option Bytes} (h : b ∈ (writeBatch call db batches).2) :
    ∃ b' ∈ batches, b'.ops = b.ops := by
  induction batches with
  | nil => cases h
  | cons b' batches ih =>
    unfold writeBatch at h
    split at h
    · rcases mem_cons.mp h with rfl | h
      · exact ⟨b', mem_cons_self, rfl⟩
      · exact ⟨b, mem_cons_of_mem _ h, rfl⟩
    · rcases mem_cons.mp h with rfl | h
      · exact ⟨b, mem_cons_self, rfl⟩
      · obtain ⟨b'', hb'', hops⟩ := ih h
        exact ⟨b'', mem_cons_of_mem _ hb'', hops⟩

theorem pendingOps_finish (call : Nat) (batches : List PendingBatch) :
    pendingOps (batches.filter (fun b => b.call ≠ call || b.written = false)) = pendingOps batches := by
  unfold pendingOps
  rw [List.filter_filter]
  congr 1
  apply List.filter_congr
  intro b _
  cases b.written <;> simp

theorem batched_cons (e : Event) (events : List Event) :
    batched (e :: events) = batched [e] ++ batched events := by
  unfold batched
  rw [← flatMap_append]
  rfl

theorem usedKeys_append (events events' : List Event) :
    usedKeys events ⊆ usedKeys (events ++ events') ∧ usedKeys events' ⊆ usedKeys (events ++ events') := by
  have hbatched : batched (events ++ events') = batched events ++ batched events' := flatMap_append
  constructor
  · rintro key (⟨call, hcall⟩ | ⟨op, hop, hkey⟩)
    · exact .inl ⟨call, mem_append.mpr (.inl hcall)⟩
    · exact .inr ⟨op, hbatched ▸ mem_append.mpr (.inl hop), hkey⟩
  · rintro key (⟨call, hcall⟩ | ⟨op, hop, hkey⟩)
    · exact .inl ⟨call, mem_append.mpr (.inr hcall)⟩
    · exact .inr ⟨op, hbatched ▸ mem_append.mpr (.inr hop), hkey⟩

theorem usedKeys_cons (e : Event) (events : List Event) :
    usedKeys [e] ⊆ usedKeys (e :: events) ∧ usedKeys events ⊆ usedKeys (e :: events) :=
  usedKeys_append [e] events

theorem gets_fillCache (s : DBManager) (key : DatabaseKey) (value : Option Bytes) :
    (s.fillCache key value).gets = s.gets := by
  unfold fillCache
  split <;> rfl

namespace Current

variable {used : Set DatabaseKey} {last : DatabaseKey → Option Bytes} {s : DBManager}

theorem new (used : Set DatabaseKey) (db : Bytes → Option Bytes) :
    Current used (fun key => db key.baseKey) (DBManager.new db) where
  stored _ _ := rfl
  cached key _ value h := by
    obtain ⟨name, -, hvalue⟩ := fromCache_eq.mp h
    cases hvalue
  filling call g h := by cases h
  asked call g h := by cases h
  written b h := by cases h

section

variable (h : Current used last s)
include h

/-- The caches may lose entries, and gain those that are last values. -/
theorem withCache (caches : Caches)
    (hcaches : ∀ key ∈ used, ∀ name value, key.cacheString = some name →
      caches name key.baseKey = some value → last key = some value) :
    Current used last { s with _cache := caches } where
  stored := h.stored
  cached key hkey value hvalue := by
    obtain ⟨name, hname, hcached⟩ := fromCache_eq.mp hvalue
    exact hcaches key hkey name value hname hcached
  filling := h.filling
  asked := h.asked
  written := h.written

/-- A pending read may be given another answer. -/
theorem setGet (call : Nat) {g : PendingGet} (hkey : g.key ∈ used)
    (hfills : g.fills = true → g.read = some (last g.key)) :
    Current used last { s with gets := s.gets.set call g } where
  stored := h.stored
  cached := h.cached
  filling call' g' hg' hf' := by
    rw [get_set] at hg'
    split at hg'
    · cases hg'
      exact hfills hf'
    · exact h.filling call' g' hg' hf'
  asked call' g' hg' := by
    rw [get_set] at hg'
    split at hg'
    · cases hg'
      exact hkey
    · exact h.asked call' g' hg'
  written := h.written

theorem deleteGet (call : Nat) : Current used last { s with gets := s.gets.delete call } where
  stored := h.stored
  cached := h.cached
  filling call' g' hg' hf' := by
    rw [get_delete] at hg'
    split at hg'
    · cases hg'
    · exact h.filling call' g' hg' hf'
  asked call' g' hg' := by
    rw [get_delete] at hg'
    split at hg'
    · cases hg'
    · exact h.asked call' g' hg'
  written := h.written

end

variable {call : Nat}

theorem read (h : Current used last s) (hK : s.orderly (.read call) = true) :
    Current used last (s.read call) := by
  unfold DBManager.read
  split
  · rename_i key hg
    simp only [orderly, hg] at hK
    have hkey : key ∈ used := h.asked call _ hg
    refine h.setGet call hkey (fun hfills => ?_)
    rw [hfills, Bool.not_true, Bool.false_or] at hK
    have hlast := h.stored key hkey
    rw [lastValue_of_untouched (touches_pendingOps hK)] at hlast
    exact congrArg some hlast
  · exact h

theorem finishGet (hd : Distinct used) (h : Current used last s) (call : Nat) :
    Current used last (s.finishGet call).1 := by
  unfold DBManager.finishGet
  split
  · rename_i key value hg
    have hkey : key ∈ used := h.asked call _ hg
    suffices hfill : Current used last (s.fillCache key value) by
      have hdone := hfill.deleteGet call
      rw [gets_fillCache] at hdone
      exact hdone
    unfold fillCache
    split
    · rename_i name v hname
      have hread := h.filling call _ hg (by simp only [PendingGet.fills, hname]; rfl)
      have hlast : last key = some v := (some.inj hread).symm
      refine h.withCache _ (fun key' hkey' name' value' hname' hvalue' => ?_)
      unfold setCache at hvalue'
      split at hvalue'
      · rename_i hsame
        rw [← hvalue', ← hlast, hd hkey' hkey hsame.2]
      · exact h.cached key' hkey' value' (fromCache_eq.mpr ⟨name', hname', hvalue'⟩)
    · exact h
  · exact h

theorem batch (hd : Distinct used) (h : Current used last s) {ops : List DBOp}
    (hops : ∀ op ∈ ops, op.key ∈ used) (hK : s.orderly (.batch call ops) = true) :
    Current used (fun key => lastValue ops key (last key)) (s.batch call ops) where
  stored key hkey := by
    have hpending : pendingOps (s.batches ++ [{ call := call, ops := ops, written := false }]) =
        pendingOps s.batches ++ ops := by
      rw [pendingOps_append, pendingOps_cons_unwritten rfl]
      exact congrArg (pendingOps s.batches ++ ·) (append_nil ops)
    simp only [DBManager.batch]
    rw [hpending, lastValue_append, h.stored key hkey]
  cached key hkey value hvalue := by
    obtain ⟨name, hname, hcached⟩ := fromCache_eq.mp hvalue
    have hfold := foldl_updateCache hd hops hkey hname s._cache
    rw [show (s.batch call ops)._cache = ops.foldl updateCache s._cache from rfl, hfold] at hcached
    rw [← hcached]
    cases ht : touches ops key with
    | true => exact lastValue_of_touched ht _ _
    | false =>
      rw [lastValue_of_untouched ht] at hcached ⊢
      rw [lastValue_of_untouched ht, hcached]
      exact h.cached key hkey value (fromCache_eq.mpr ⟨name, hname, hcached⟩)
  filling call' g (hg : s.gets.get call' = some g) hfills := by
    have hmem : call' ∈ s.gets.keys := mem_keys.mpr ⟨g, hg⟩
    have hone := all_eq_true.mp hK call' hmem
    rw [hg, all_some, hfills, Bool.not_true, Bool.false_or, not_eq_true'] at hone
    rw [lastValue_of_untouched hone]
    exact h.filling call' g hg hfills
  asked := h.asked
  written b hb op hop := by
    rcases mem_append.mp hb with hb | hb
    · exact h.written b hb op hop
    · obtain rfl := mem_singleton.mp hb
      exact hops op hop

theorem write (hd : Distinct used) (h : Current used last s) (hK : s.orderly (.write call) = true) :
    Current used last (s.write call) where
  stored key hkey := by
    have hused : ∀ op ∈ nextWrite call s.batches, op.key ∈ used := by
      intro op hop
      obtain ⟨b, hb, hmem⟩ := mem_nextWrite hop
      exact h.written b hb op hmem
    exact (writeBatch_in_turn hd hused hkey hK).trans (h.stored key hkey)
  cached := h.cached
  filling := h.filling
  asked := h.asked
  written b hb op hop := by
    obtain ⟨b', hb', hops⟩ := mem_writeBatch hb
    exact h.written b' hb' op (hops ▸ hop)

theorem finishBatch (h : Current used last s) (call : Nat) : Current used last (s.finishBatch call) where
  stored key hkey := by
    have hstored := h.stored key hkey
    rw [← pendingOps_finish call] at hstored
    exact hstored
  cached := h.cached
  filling := h.filling
  asked := h.asked
  written b hb := h.written b (mem_of_mem_filter hb)

/-- What an orderly step leaves: the caches and reads have the last values, counting the batch that
the step may call. -/
theorem step (hd : Distinct used) (h : Current used last s) {e : Event}
    (hused : usedKeys [e] ⊆ used) (hK : s.orderly e = true) :
    Current used (fun key => lastValue (batched [e]) key (last key)) (s.step e).1 := by
  cases e with
  | get call key =>
    have hkey : key ∈ used := hused (.inl ⟨call, mem_singleton_self _⟩)
    simp only [DBManager.step]
    split
    · exact h
    · unfold DBManager.get
      split
      · exact h
      · refine h.setGet call hkey (fun hfills => ?_)
        simp [PendingGet.fills] at hfills
  | read call => exact h.read hK
  | finishGet call => exact h.finishGet hd call
  | batch call ops =>
    have hops : ∀ op ∈ ops, op.key ∈ used := by
      intro op hop
      exact hused (.inr ⟨op, by simpa [batched] using hop, rfl⟩)
    have hbatched : batched [.batch call ops] = ops := append_nil ops
    rw [hbatched]
    exact h.batch hd hops hK
  | write call => exact h.write hd hK
  | finishBatch call => exact h.finishBatch call
  | evict name key =>
    refine h.withCache _ (fun key' hkey' name' value hname hvalue => ?_)
    unfold setCache at hvalue
    split at hvalue
    · cases hvalue
    · exact h.cached key' hkey' value (fromCache_eq.mpr ⟨name', hname, hvalue⟩)

theorem run (hd : Distinct used) {events : List Event} (h : Current used last s)
    (hused : usedKeys events ⊆ used) (hK : orderlyRun events s = true) :
    Current used (fun key => lastValue (batched events) key (last key)) (DBManager.run events s) := by
  induction events generalizing s last with
  | nil => exact h
  | cons e events ih =>
    obtain ⟨hone, hrest⟩ := (and_eq_true _ _).mp hK
    have hsplit := usedKeys_cons e events
    have hstep := ih (h.step hd (hsplit.1.trans hused) hone) (hsplit.2.trans hused) hrest
    rw [batched_cons]
    simp only [lastValue_append]
    exact hstep

end Current

/-! ## Reads without batches -/

/-- No batch is on its way and every value is the last one. -/
structure Calm (used : Set DatabaseKey) (last : DatabaseKey → Option Bytes) (s : DBManager) : Prop where
  batches : s.batches = []
  stored : ∀ key ∈ used, s._db key.baseKey = last key
  cached : ∀ key ∈ used, ∀ value, s.fromCache key = some value → last key = some value
  reading : ∀ call g, s.gets.get call = some g → g.key ∈ used ∧ ∀ value, g.read = some value →
    value = last g.key

namespace Calm

variable {used : Set DatabaseKey} {last : DatabaseKey → Option Bytes} {s : DBManager}

/-- Once all calls have settled, nothing is left that could be written later. -/
theorem of_current (h : Current used last s) (hsettled : s.settled) : Calm used last s where
  batches := hsettled.2
  stored key hkey := by
    have hstored := h.stored key hkey
    rw [hsettled.2] at hstored
    exact hstored
  cached := h.cached
  reading call g hg := by
    have hmem : call ∈ s.gets.keys := mem_keys.mpr ⟨g, hg⟩
    rw [hsettled.1] at hmem
    exact absurd hmem not_mem_nil

theorem setGet (h : Calm used last s) (call : Nat) {g : PendingGet} (hkey : g.key ∈ used)
    (hread : ∀ value, g.read = some value → value = last g.key) :
    Calm used last { s with gets := s.gets.set call g } where
  batches := h.batches
  stored := h.stored
  cached := h.cached
  reading call' g' hg' := by
    rw [get_set] at hg'
    split at hg'
    · cases hg'
      exact ⟨hkey, hread⟩
    · exact h.reading call' g' hg'

variable (hd : Distinct used)
include hd

theorem finishGet (h : Calm used last s) (call : Nat) :
    Calm used last (s.finishGet call).1 ∧ ∀ out ∈ (s.finishGet call).2, out.2 = last out.1 := by
  unfold DBManager.finishGet
  split
  · rename_i key value hg
    obtain ⟨hkey, hlast⟩ := h.reading call _ hg
    have hvalue : value = last key := hlast value rfl
    refine ⟨?_, fun out hout => some.inj hout ▸ hvalue⟩
    constructor
    · exact (show (s.fillCache key value).batches = s.batches by unfold fillCache; split <;> rfl).trans
        h.batches
    · intro key' hkey'
      exact (show (s.fillCache key value)._db key'.baseKey = s._db key'.baseKey by
        unfold fillCache; split <;> rfl).trans (h.stored key' hkey')
    · intro key' hkey' value' hcached
      obtain ⟨name', hname', hfilled⟩ := fromCache_eq.mp hcached
      simp only [fillCache] at hfilled
      split at hfilled
      · rename_i name v hname
        simp only [setCache] at hfilled
        split at hfilled
        · rename_i hsame
          rw [hd hkey' hkey hsame.2, ← hvalue, hfilled]
        · exact h.cached key' hkey' value' (fromCache_eq.mpr ⟨name', hname', hfilled⟩)
      · exact h.cached key' hkey' value' (fromCache_eq.mpr ⟨name', hname', hfilled⟩)
    · intro call' g' hg'
      simp only at hg'
      rw [get_delete] at hg'
      split at hg'
      · cases hg'
      · exact h.reading call' g' hg'
  · exact ⟨h, fun out hout => by cases hout⟩

/-- A step that calls no batch keeps the calm, and a `get` that returns has the last value. -/
theorem step (h : Calm used last s) {e : Event} (hused : usedKeys [e] ⊆ used)
    (hbatch : e.isBatch = false) :
    Calm used last (s.step e).1 ∧ ∀ out ∈ (s.step e).2, out.2 = last out.1 := by
  have hnone (s' : DBManager) (h' : Calm used last s') : Calm used last s' ∧
      ∀ out ∈ (none : Option (DatabaseKey × Option Bytes)), out.2 = last out.1 :=
    ⟨h', fun out hout => by cases hout⟩
  cases e with
  | get call key =>
    have hkey : key ∈ used := hused (.inl ⟨call, mem_singleton_self _⟩)
    simp only [DBManager.step]
    split
    · exact hnone s h
    · unfold DBManager.get
      split
      · rename_i value hvalue
        refine ⟨h, fun out hout => ?_⟩
        rw [← some.inj hout]
        exact (h.cached key hkey value hvalue).symm
      · exact hnone _ (h.setGet call hkey (fun value hread => by cases hread))
  | read call =>
    refine hnone (s.read call) ?_
    unfold DBManager.read
    split
    · rename_i key hg
      obtain ⟨hkey, -⟩ := h.reading call _ hg
      refine h.setGet call hkey (fun value hread => ?_)
      rw [← some.inj hread]
      exact h.stored key hkey
    · exact h
  | finishGet call => exact h.finishGet hd call
  | batch call ops => cases hbatch
  | write call =>
    refine hnone (s.write call) ?_
    have hsame : s.write call = s := by
      unfold DBManager.write
      rw [h.batches]
      simp only [writeBatch]
      rw [← h.batches]
    rw [hsame]
    exact h
  | finishBatch call =>
    refine hnone (s.finishBatch call) ?_
    have hsame : s.finishBatch call = s := by
      unfold DBManager.finishBatch
      rw [h.batches]
      simp only [filter_nil]
      rw [← h.batches]
    rw [hsame]
    exact h
  | evict name key =>
    refine hnone { s with _cache := setCache s._cache name key none }
      ⟨h.batches, h.stored, fun key' hkey' value hcached => ?_, h.reading⟩
    obtain ⟨name', hname', hkept⟩ := fromCache_eq.mp hcached
    simp only [setCache] at hkept
    split at hkept
    · cases hkept
    · exact h.cached key' hkey' value (fromCache_eq.mpr ⟨name', hname', hkept⟩)

theorem returned {events : List Event} (h : Calm used last s)
    (hused : usedKeys events ⊆ used) (hbatch : ∀ e ∈ events, e.isBatch = false) :
    ∀ out ∈ DBManager.returned events s, out.2 = last out.1 := by
  induction events generalizing s with
  | nil => intro out hout; cases hout
  | cons e events ih =>
    have hsplit := usedKeys_cons e events
    obtain ⟨hcalm, hfirst⟩ := h.step hd (hsplit.1.trans hused) (hbatch e mem_cons_self)
    intro out hout
    rcases mem_append.mp hout with hout | hout
    · exact hfirst out (mem_toList.mp hout)
    · exact ih hcalm (hsplit.2.trans hused) (fun e' he' => hbatch e' (mem_cons_of_mem _ he')) out hout

end Calm

end DBManager
