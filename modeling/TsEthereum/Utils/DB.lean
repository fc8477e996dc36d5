-- SUMMARY: Byte strings, and the key-value database that the packages share.
import TsEthereum.Base.OrderedMap

/-!
# Databases

Keys and values are byte strings. The string encodings that a database may ask
for are one-to-one spellings of the bytes, and are left out.
-/

open List Option

abbrev Bytes := List UInt8

inductive BatchDBOp where
  | put (key value : Bytes)
  | del (key : Bytes)
  deriving DecidableEq, Repr

namespace BatchDBOp

def key : BatchDBOp → Bytes
  | .put key _ => key
  | .del key => key

/-- What the operation leaves under its key. -/
def value : BatchDBOp → Option Bytes
  | .put _ value => some value
  | .del _ => none

/-- What a list of operations leaves under a key that they write. -/
def lastWrite : List BatchDBOp → Bytes → Option (Option Bytes)
  | [], _ => none
  | op :: ops, k => (lastWrite ops k).orElse fun _ => if op.key = k then some op.value else none

theorem lastWrite_eq_none {ops : List BatchDBOp} {k : Bytes} :
    lastWrite ops k = none ↔ ∀ op ∈ ops, op.key ≠ k := by
  induction ops with
  | nil => simp [lastWrite]
  | cons op ops ih =>
    simp only [lastWrite, forall_mem_cons, ← ih]
    cases lastWrite ops k with
    | none => by_cases hk : op.key = k <;> simp [hk]
    | some x => simp

/-- A value that is left under a key was put there. -/
theorem put_mem_of_lastWrite {ops : List BatchDBOp} {k v : Bytes}
    (h : lastWrite ops k = some (some v)) : .put k v ∈ ops := by
  induction ops with
  | nil => cases h
  | cons op ops ih =>
    simp only [lastWrite] at h
    cases hrest : lastWrite ops k with
    | some x =>
      rw [hrest] at h
      exact mem_cons_of_mem op (ih (hrest.trans h))
    | none =>
      rw [hrest] at h
      simp only [orElse_none] at h
      split at h
      · rename_i hkey
        cases op with
        | del key => cases h
        | put key value =>
          obtain rfl : value = v := some.inj (some.inj h)
          obtain rfl : key = k := hkey
          exact mem_cons_self
      · cases h

end BatchDBOp

/-- The in-memory database. -/
abbrev MapDB := OrderedMap Bytes Bytes

namespace MapDB

def batchOp (db : MapDB) : BatchDBOp → MapDB
  | .put key value => db.set key value
  | .del key => db.delete key

def batch (db : MapDB) (opStack : List BatchDBOp) : MapDB := opStack.foldl batchOp db

@[simp] theorem get_batchOp (db : MapDB) (op : BatchDBOp) (k : Bytes) :
    (db.batchOp op).get k = if k = op.key then op.value else db.get k := by
  cases op with
  | put key value => exact OrderedMap.get_set db key k value
  | del key => exact OrderedMap.get_delete db key k

@[simp] theorem batch_nil (db : MapDB) : db.batch [] = db := rfl

@[simp] theorem batch_cons (db : MapDB) (op : BatchDBOp) (ops : List BatchDBOp) :
    db.batch (op :: ops) = (db.batchOp op).batch ops := rfl

theorem get_batch (db : MapDB) (ops : List BatchDBOp) (k : Bytes) :
    (db.batch ops).get k = (BatchDBOp.lastWrite ops k).getD (db.get k) := by
  induction ops generalizing db with
  | nil => rfl
  | cons op ops ih =>
    simp only [batch_cons, ih, get_batchOp, BatchDBOp.lastWrite]
    cases BatchDBOp.lastWrite ops k with
    | none =>
      by_cases hk : op.key = k
      · simp [hk]
      · simp [hk, Ne.symm hk]
    | some x => simp

/-- A value stays where every operation under its key puts it there. -/
theorem get_batch_of_puts {db : MapDB} {ops : List BatchDBOp} {k v : Bytes}
    (hops : ∀ op ∈ ops, op.key = k → op = .put k v) (h : .put k v ∈ ops ∨ db.get k = some v) :
    (db.batch ops).get k = some v := by
  induction ops generalizing db with
  | nil => exact h.resolve_left not_mem_nil
  | cons op ops ih =>
    refine ih (fun op' hop' => hops op' (mem_cons_of_mem op hop')) ?_
    rw [get_batchOp]
    by_cases hkey : op.key = k
    · rw [if_pos hkey.symm, hops op mem_cons_self hkey]
      exact .inr rfl
    · rw [if_neg (Ne.symm hkey)]
      refine h.imp_left (fun hmem => ?_)
      rcases mem_cons.mp hmem with hput | hmem
      · exact absurd (congrArg BatchDBOp.key hput.symm) hkey
      · exact hmem

theorem batch_append (db : MapDB) (ops ops' : List BatchDBOp) :
    db.batch (ops ++ ops') = (db.batch ops).batch ops' := foldl_append

end MapDB
