-- SUMMARY: put, del and batch under the lock of the trie, and what the lock does to the calls after one that throws.
import TsEthereum.Base.Program
import TsEthereum.MerkleTrie.Throwing

/-!
# The lock of the trie

`put` and `del` acquire the lock first and release it last, with no `finally` in
between. Calls are made one after the other; one that does not get the lock stays in
the queue, and only a release takes it out.
-/

open Rlp (Item)
open Nibbles

/-- The queue counts the callers that wait. -/
structure Lock where
  permits : Nat
  promiseResolverQueue : Nat
  deriving DecidableEq, Repr

def Lock.new : Lock := ⟨1, 0⟩

/-- `__root__` -/
def ROOT_DB_KEY : Bytes := [0x5f, 0x5f, 0x72, 0x6f, 0x6f, 0x74, 0x5f, 0x5f]

inductive TrieError where
  | rootKeyNotAllowed
  | mpt (e : MPTError)
  deriving DecidableEq, Repr

def TrieError.message : TrieError → String
  | .rootKeyNotAllowed => "Attempted to set '__root__' key but it is not allowed."
  | .mpt e => e.message

/-- How a call ends that does not return. -/
inductive Stop where
  | threw (e : TrieError)
  | waits
  /-- The bound of the model on the steps of a walk does not suffice. -/
  | unfinished
  deriving DecidableEq, Repr

def MPTError.stop : MPTError → Stop
  | .outOfFuel => .unfinished
  | e => .threw (.mpt e)

structure LockedTrie where
  trie : MPT
  _lock : Lock
  useRootPersistence : Bool

namespace LockedTrie

abbrev Action := Program Stop LockedTrie

open Program

/-! ## The lock -/

def acquire : Action Unit := do
  let s ← get
  if s._lock.permits > 0 then
    modify fun s => { s with _lock.permits := s._lock.permits - 1 }
  else
    modify fun s => { s with _lock.promiseResolverQueue := s._lock.promiseResolverQueue + 1 }
    throw .waits

def release : Action Unit := modify fun s =>
  let permits := s._lock.permits + 1
  let waiting := s._lock.promiseResolverQueue
  if permits > 1 ∧ waiting > 0 then { s with _lock := ⟨permits, waiting⟩ }
  else if permits = 1 ∧ waiting > 0 then
    -- the permit goes to the caller that has waited longest
    { s with _lock := ⟨permits - 1, waiting - 1⟩ }
  else { s with _lock := ⟨permits, waiting⟩ }

/-! ## Put, del and batch -/

variable (hash : Bytes → Bytes)

def orThrow {α : Type} : Except MPTError α → Action α
  | .ok a => ret a
  | .error e => throw e.stop

/-- A change of the trie. The root and the database are the last that the functions of the trie
write, so one that throws has changed nothing. -/
def update (f : MPT → Except MPTError MPT) : Action Unit := do
  let s ← get
  let t ← orThrow (f s.trie)
  modify fun s => { s with trie := t }

def persistRoot : Action Unit := modify fun s =>
  if s.useRootPersistence then
    { s with trie := s.trie.dbBatch [.put (s.trie.appliedKey hash ROOT_DB_KEY) s.trie._root] }
  else s

/-- What `put` and `del` do around their work on the trie. -/
def locked (body : Action Unit) : Action Unit := do
  acquire
  body
  persistRoot hash
  release

def del (fuel : Nat) (key : Bytes) (skipKeyTransform : Bool) : Action Unit :=
  locked hash do
    let s ← get
    let appliedKey := s.trie.walkedKey hash key skipKeyTransform
    let path ← orThrow (MPT.findPath fuel s.trie appliedKey false)
    match path.node with
    | none => pure ()
    | some _ =>
      update fun t => t.deleteNode hash appliedKey path.stack
      if s.trie._opts.useNodePruning then
        update fun t => .ok (t.dbBatch (MPT.pruneOps hash path.stack))
      else pure ()

/-- `put` of a value that is not empty. -/
def putValue (fuel : Nat) (key value : Bytes) (skipKeyTransform : Bool) : Action Unit :=
  locked hash do
    let s ← get
    let appliedKey := s.trie.walkedKey hash key skipKeyTransform
    if s.trie._root = MPT.EMPTY_TRIE_ROOT hash then
      update fun t => t.createInitialNode hash appliedKey value
    else
      let path ← orThrow (MPT.findPath fuel s.trie appliedKey false)
      let ops ← orThrow (s.trie.obsolete hash fuel key value path.stack)
      update fun t => t.updateNode hash appliedKey value path.remaining path.stack
      if s.trie._opts.useNodePruning then
        update fun t => .ok (t.dbBatch ops)
      else pure ()

/-- The key that may not be set where the root is kept under it. -/
def Refused (useRootPersistence : Bool) (key : Bytes) : Prop :=
  useRootPersistence = true ∧ key = ROOT_DB_KEY

instance (useRootPersistence : Bool) (key : Bytes) : Decidable (Refused useRootPersistence key) :=
  inferInstanceAs (Decidable (_ ∧ _))

def OpRefused (useRootPersistence : Bool) : BatchDBOp → Prop
  | .put key _ => Refused useRootPersistence key
  | .del _ => False

instance (useRootPersistence : Bool) : (op : BatchDBOp) → Decidable (OpRefused useRootPersistence op)
  | .put _ _ => inferInstanceAs (Decidable (_ ∧ _))
  | .del _ => .isFalse id

def put (fuel : Nat) (key : Bytes) (value : Option Bytes) (skipKeyTransform : Bool) :
    Action Unit := do
  let s ← get
  if Refused s.useRootPersistence key then throw (.threw .rootKeyNotAllowed)
  else
    match value with
    | none | some [] => del hash fuel key false
    | some (x :: value) => putValue hash fuel key (x :: value) skipKeyTransform

def batchOp (fuel : Nat) (skipKeyTransform : Bool) : BatchDBOp → Action Unit
  | .put key value => put hash fuel key (some value) skipKeyTransform
  | .del key => del hash fuel key skipKeyTransform

def batch (fuel : Nat) (skipKeyTransform : Bool) : List BatchDBOp → Action Unit
  | [] => persistRoot hash
  | op :: ops => do
    batchOp hash fuel skipKeyTransform op
    batch fuel skipKeyTransform ops

inductive Call where
  | put (key : Bytes) (value : Option Bytes) (skipKeyTransform : Bool)
  | del (key : Bytes) (skipKeyTransform : Bool)
  | batch (ops : List BatchDBOp) (skipKeyTransform : Bool)
  deriving DecidableEq, Repr

def Call.run (fuel : Nat) : Call → Action Unit
  | .put key value skip => LockedTrie.put hash fuel key value skip
  | .del key skip => LockedTrie.del hash fuel key skip
  | .batch ops skip => LockedTrie.batch hash fuel skip ops

/-! ## A call on a trie with a free lock -/

/-- The trie as it is between calls. -/
def unlocked (p : Bool) (t : MPT) : LockedTrie := ⟨t, .new, p⟩

/-- The root is written to the database with `useRootPersistence`. -/
def persisted (p : Bool) (t : MPT) : MPT :=
  if p then t.dbBatch [.put (t.appliedKey hash ROOT_DB_KEY) t._root] else t

/-- What a call leaves whose work on the trie has the given outcome. -/
def settled (p : Bool) (t : MPT) : Except MPTError MPT → Except Stop Unit × LockedTrie
  | .ok t' => (.ok (), unlocked p (persisted hash p t'))
  | .error e => (.error e.stop, ⟨t, ⟨0, 0⟩, p⟩)

variable {hash} {fuel : Nat} {p : Bool} {t t' : MPT}

theorem update_of_ok {f : MPT → Except MPTError MPT} {s : LockedTrie} (h : f s.trie = .ok t') :
    update f s = (.ok (), { s with trie := t' }) := by
  refine (bind_of_ok (p := get) rfl).trans (bind_of_ok (p := orThrow (f s.trie)) ?_)
  rw [h]
  rfl

theorem update_of_error {f : MPT → Except MPTError MPT} {s : LockedTrie} {e : MPTError}
    (h : f s.trie = .error e) : update f s = (.error e.stop, s) := by
  refine (bind_of_ok (p := get) rfl).trans (bind_of_error (p := orThrow (f s.trie)) ?_)
  rw [h]
  rfl

/-- A call takes the lock, and gives it back where its work on the trie does not throw. -/
theorem locked_update (f : MPT → Except MPTError MPT) (p : Bool) (t : MPT) :
    locked hash (update f) (unlocked p t) = settled hash p t (f t) := by
  have hacquire : acquire (unlocked p t) = (.ok (), ⟨t, ⟨0, 0⟩, p⟩) := rfl
  refine (bind_of_ok hacquire).trans ?_
  cases hf : f t with
  | error e => exact bind_of_error (update_of_error hf)
  | ok t' =>
    refine (bind_of_ok (update_of_ok hf)).trans ?_
    cases p <;> rfl

/-! ## Work under the lock -/

theorem orThrow_update {α : Type} (x : Except MPTError α) (f : α → MPT → Except MPTError MPT) :
    (orThrow x >>= fun a => update (f a)) = update fun t => x >>= fun a => f a t := by
  cases x with
  | error e => rfl
  | ok a => rfl

/-- A change that cannot throw, after one that can. -/
theorem update_map (f : MPT → Except MPTError MPT) (g : MPT → MPT) :
    (update f >>= fun _ => update fun t => .ok (g t)) = update fun t => f t >>= fun t' => .ok (g t') := by
  funext s
  cases hf : f s.trie with
  | error e =>
    refine (bind_of_error (update_of_error hf)).trans (update_of_error ?_).symm
    exact congrArg (· >>= fun t' => .ok (g t')) hf
  | ok t' =>
    have hboth : update (fun t => f t >>= fun t' => .ok (g t')) s =
        (.ok (), { s with trie := g t' }) :=
      update_of_ok (congrArg (· >>= fun t' => .ok (g t')) hf)
    exact (bind_of_ok (update_of_ok hf)).trans hboth.symm

theorem update_when (c : Prop) [Decidable c] (g : MPT → MPT) :
    (if c then update fun t => .ok (g t) else pure ()) =
      update fun t => .ok (if c then g t else t) := by
  split <;> rfl

theorem update_ite (c : Prop) [Decidable c] (f g : MPT → Except MPTError MPT) :
    (if c then update f else update g) = update fun t => if c then f t else g t := by
  split <;> rfl

/-- The work of `del` under the lock is the deletion from the trie. -/
theorem del_eq (fuel : Nat) (key : Bytes) (skip : Bool) :
    del hash fuel key skip = locked hash (update fun t => t.del hash fuel key skip) := by
  let rest (t : MPT) (path : MPT.Path) (t' : MPT) : Except MPTError MPT :=
    match path.node with
    | none => .ok t'
    | some _ => t'.deleteNode hash (t.walkedKey hash key skip) path.stack >>= fun t' =>
        .ok (if t._opts.useNodePruning then t'.dbBatch (MPT.pruneOps hash path.stack) else t')
  have hrest : ∀ (t : MPT) (path : MPT.Path), (match path.node with
      | none => pure ()
      | some _ => do
        update fun t' => t'.deleteNode hash (t.walkedKey hash key skip) path.stack
        if t._opts.useNodePruning then
          update fun t => .ok (t.dbBatch (MPT.pruneOps hash path.stack))
        else pure ()) = update (rest t path) := by
    intro t path
    simp only [update_when, update_map, rest]
    cases path.node <;> rfl
  have hdel : ∀ t : MPT, (MPT.findPath fuel t (t.walkedKey hash key skip) false >>= fun path =>
      rest t path t) = t.del hash fuel key skip := by
    intro t
    refine congrArg (MPT.findPath fuel t _ false >>= ·) (funext fun path => ?_)
    cases hnode : path.node with
    | none => simp only [rest, hnode]; rfl
    | some node =>
      simp only [rest, hnode]
      refine congrArg (t.deleteNode hash _ path.stack >>= ·) (funext fun t' => ?_)
      split <;> rfl
  refine congrArg (locked hash) ?_
  simp only [hrest, orThrow_update, ← hdel]
  rfl

theorem dbBatch_nil (t : MPT) : t.dbBatch [] = t := by
  simp [MPT.dbBatch]

/-- So it is with `put` of a value that is not empty. -/
theorem putValue_eq (fuel : Nat) (key : Bytes) {value : Bytes} (hvalue : value ≠ []) (skip : Bool) :
    putValue hash fuel key value skip =
      locked hash (update fun t => t.put hash fuel key (some value) skip) := by
  refine congrArg (locked hash) ?_
  have hput := fun t : MPT => MPT.put_eq hash fuel t key hvalue skip
  have hprune : ∀ (t t' : MPT) (stack : List MPTNode) (ops : List BatchDBOp),
      t.obsolete hash fuel key value stack = .ok ops →
        (if t._opts.useNodePruning then t'.dbBatch ops else t') = t'.dbBatch ops := by
    intro t t' stack ops hops
    split
    · rfl
    · next hnot =>
      simp only [MPT.obsolete, hnot] at hops
      cases hops
      exact (dbBatch_nil t').symm
  have hstore : ∀ t : MPT, (MPT.findPath fuel t (t.walkedKey hash key skip) false >>= fun path =>
      t.obsolete hash fuel key value path.stack >>= fun ops =>
        t.updateNode hash (t.walkedKey hash key skip) value path.remaining path.stack >>= fun t' =>
          .ok (if t._opts.useNodePruning then t'.dbBatch ops else t')) =
      t.store hash fuel key value (t.walkedKey hash key skip) := by
    intro t
    refine congrArg (MPT.findPath fuel t _ false >>= ·) (funext fun path => ?_)
    cases hops : t.obsolete hash fuel key value path.stack with
    | error e => rfl
    | ok ops =>
      refine congrArg (t.updateNode hash _ value _ path.stack >>= ·) (funext fun t' => ?_)
      rw [hprune t t' path.stack ops hops]
      rfl
  simp only [update_when, update_map, orThrow_update, update_ite, hput, ← hstore]
  funext s
  refine (bind_of_ok (get_run s)).trans ?_
  unfold update
  rfl

/-! ## Calls -/

theorem put_refused (fuel : Nat) {key : Bytes} (value : Option Bytes) (skip : Bool) (t : MPT)
    (h : Refused p key) : put hash fuel key value skip (unlocked p t) =
      (.error (.threw .rootKeyNotAllowed), unlocked p t) := by
  refine (bind_of_ok (p := get) rfl).trans ?_
  rw [if_pos (show Refused (unlocked p t).useRootPersistence key from h)]
  rfl

theorem put_unlocked (fuel : Nat) {key : Bytes} (value : Option Bytes) (skip : Bool) (t : MPT)
    (h : ¬Refused p key) : put hash fuel key value skip (unlocked p t) =
      settled hash p t (t.put hash fuel key value skip) := by
  refine (bind_of_ok (p := get) rfl).trans ?_
  rw [if_neg (show ¬Refused (unlocked p t).useRootPersistence key from h)]
  match value with
  | none | some [] =>
    exact (congrFun (del_eq fuel key false) (unlocked p t)).trans (locked_update _ p t)
  | some (x :: value) =>
    exact (congrFun (putValue_eq fuel key (List.cons_ne_nil x value) skip) (unlocked p t)).trans
      (locked_update _ p t)

theorem del_unlocked (fuel : Nat) (key : Bytes) (skip : Bool) (p : Bool) (t : MPT) :
    del hash fuel key skip (unlocked p t) = settled hash p t (t.del hash fuel key skip) := by
  rw [del_eq]
  exact locked_update _ p t

/-- Work that throws keeps the lock, and has not changed the trie. -/
theorem settled_threw {x : Except MPTError MPT} {e : TrieError} {s' : LockedTrie} :
    settled hash p t x = (.error (.threw e), s') ↔
      ∃ e', x = .error e' ∧ e' ≠ .outOfFuel ∧ e = .mpt e' ∧ s' = ⟨t, ⟨0, 0⟩, p⟩ := by
  cases x with
  | ok t' => exact iff_of_false nofun (fun ⟨_, h, _⟩ => nomatch h)
  | error e' =>
    simp only [settled, Prod.mk.injEq, Except.error.injEq, exists_eq_left']
    constructor
    · rintro ⟨hstop, rfl⟩
      cases e' <;> cases hstop <;> exact ⟨nofun, rfl, rfl⟩
    · rintro ⟨hout, rfl, rfl⟩
      refine ⟨?_, rfl⟩
      cases e' <;> first | exact absurd rfl hout | rfl

end LockedTrie
