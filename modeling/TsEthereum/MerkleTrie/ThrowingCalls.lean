-- SUMMARY: Exactly when a call that throws leaves the lock and the root of the trie as they were.
import TsEthereum.MerkleTrie.Locking

/-!
# Calls that throw

With no `finally`, a call that throws once it has the lock keeps it. So a call throws
safely where it does not throw with the lock, and a put that comes to a missing node
would have to throw before.
-/

open Rlp (Item)
open Nibbles

namespace LockedTrie

open Program

variable (hash : Bytes → Bytes)

/-- A node on the path of the key is missing, in a trie that is not empty. -/
def RunsIntoMissing (t : MPT) (key : Bytes) : Prop :=
  t._root ≠ MPT.EMPTY_TRIE_ROOT hash ∧ t.Breaks key .missingNode

/-- A call that throws leaves the lock and the root as they were, and a put whose path runs into
a missing node throws. -/
structure ThrowsSafely (s : LockedTrie) (c : Call) : Prop where
  unchanged : ∀ fuel e s', c.run hash fuel s = (.error (.threw e), s') →
    s'._lock = s._lock ∧ s'.trie._root = s.trie._root
  missing : ∀ key value skip, c = .put key value skip →
    RunsIntoMissing hash s.trie (s.trie.walkedKey hash key skip) →
      ∃ fuel e s', c.run hash fuel s = (.error (.threw e), s')

/-- No operation of a batch throws in the trie that the operations before it leave, unless it is
refused and the root is still `root`. -/
def BatchSafe (p skip : Bool) (root : Bytes) : List BatchDBOp → MPT → Prop
  | [], _ => True
  | op :: ops, t =>
    if OpRefused p op then t._root = root
    else t.OpSafe hash skip op ∧
      ∀ fuel t', t.batchOp hash fuel skip op = .ok t' →
        BatchSafe p skip root ops (persisted hash p t')

/-- What keeps a call from throwing with the lock, and from passing over a missing node. -/
def Call.Safe (p : Bool) (t : MPT) : Call → Prop
  | .put key value skip => Refused p key ∨
      t.PutSafe hash key skip value ∧ ¬RunsIntoMissing hash t (t.walkedKey hash key skip)
  | .del key skip => t.DelSafe (t.walkedKey hash key skip)
  | .batch ops skip => BatchSafe hash p skip t._root ops t

variable {hash} {fuel : Nat} {p : Bool} {t t' : MPT}

/-- Where the work of a call is that of `f`, the call throws safely exactly if `f` never throws. -/
theorem unchanged_iff {run : Nat → Action Unit} {f : Nat → Except MPTError MPT} (root : Bytes)
    (hrun : ∀ fuel, run fuel (unlocked p t) = settled hash p t (f fuel)) :
    (∀ fuel e s', run fuel (unlocked p t) = (.error (.threw e), s') →
        s'._lock = .new ∧ s'.trie._root = root) ↔ ¬∃ e, Fueled.Throws .outOfFuel f e := by
  constructor
  · rintro hall ⟨e, hout, n, hn⟩
    have hthrew := (hrun n).trans (settled_threw.mpr ⟨e, hn, hout, rfl, rfl⟩)
    exact (nomatch (hall n (.mpt e) _ hthrew).1)
  · intro hnone fuel e s' hthrew
    obtain ⟨e', he', hout, -, -⟩ := settled_threw.mp ((hrun fuel).symm.trans hthrew)
    exact absurd ⟨e', hout, fuel, he'⟩ hnone

variable {op : BatchDBOp}

variable (hash) in
theorem batchOp_refused (fuel : Nat) (skip : Bool) (t : MPT) (h : OpRefused p op) :
    batchOp hash fuel skip op (unlocked p t) =
      (.error (.threw .rootKeyNotAllowed), unlocked p t) := by
  cases op with
  | put key value => exact put_refused fuel (some value) skip t h
  | del key => exact h.elim

theorem batchOp_unlocked (fuel : Nat) (skip : Bool) (t : MPT) (h : ¬OpRefused p op) :
    batchOp hash fuel skip op (unlocked p t) = settled hash p t (t.batchOp hash fuel skip op) := by
  cases op with
  | put key value => exact put_unlocked fuel (some value) skip t h
  | del key => exact del_unlocked fuel key skip p t

variable {skip : Bool}

/-- What the rest of a batch does after an operation on a trie with a free lock. -/
theorem batch_cons_ok {fuel : Nat} {ops : List BatchDBOp} (hop : ¬OpRefused p op)
    (h : t.batchOp hash fuel skip op = .ok t') : batch hash fuel skip (op :: ops) (unlocked p t) =
      batch hash fuel skip ops (unlocked p (persisted hash p t')) := by
  refine bind_of_ok (a := ()) ((batchOp_unlocked fuel skip t hop).trans ?_)
  rw [h]
  rfl

theorem batch_cons_error {fuel : Nat} (ops : List BatchDBOp) {e : MPTError} (hop : ¬OpRefused p op)
    (h : t.batchOp hash fuel skip op = .error e) :
    batch hash fuel skip (op :: ops) (unlocked p t) = (.error e.stop, ⟨t, ⟨0, 0⟩, p⟩) := by
  refine bind_of_error ((batchOp_unlocked fuel skip t hop).trans ?_)
  rw [h]
  rfl

/-- With more steps a batch that has come to an end comes to the same end. -/
theorem batch_steady (ops : List BatchDBOp) {n m : Nat} (hle : n ≤ m)
    (h : (batch hash n skip ops (unlocked p t)).1 ≠ .error .unfinished) :
    batch hash m skip ops (unlocked p t) = batch hash n skip ops (unlocked p t) := by
  induction ops generalizing t with
  | nil => rfl
  | cons op ops ih =>
    by_cases hop : OpRefused p op
    · have hrefused := fun fuel => bind_of_error (f := fun _ => batch hash fuel skip ops)
        (batchOp_refused hash fuel skip t hop)
      exact (hrefused m).trans (hrefused n).symm
    · cases hn : t.batchOp hash n skip op with
      | error e =>
        have hstop := batch_cons_error ops hop hn
        have hout : e ≠ .outOfFuel := by
          rintro rfl
          exact h (congrArg Prod.fst hstop)
        have hm : t.batchOp hash m skip op = .error e :=
          ((MPT.batchOp_steady t op skip).le (fun hu => hout (Except.error.inj (hn.symm.trans hu)))
            hle).trans hn
        exact (batch_cons_error ops hop hm).trans hstop.symm
      | ok t' =>
        have hm : t.batchOp hash m skip op = .ok t' :=
          ((MPT.batchOp_steady t op skip).le (fun hu => nomatch hn.symm.trans hu) hle).trans hn
        rw [batch_cons_ok hop hn] at h ⊢
        rw [batch_cons_ok hop hm]
        exact ih h

/-- A batch that throws leaves lock and root as they were exactly if it is safe. -/
theorem batch_unchanged (hlen : ∀ m, (hash m).length = 32) (p : Bool) (t : MPT) (skip : Bool)
    (root : Bytes) (ops : List BatchDBOp) :
    (∀ fuel e s', batch hash fuel skip ops (unlocked p t) = (.error (.threw e), s') →
        s'._lock = .new ∧ s'.trie._root = root) ↔ BatchSafe hash p skip root ops t := by
  induction ops generalizing t with
  | nil =>
    refine iff_of_true (fun fuel e s' h => ?_) trivial
    cases h
  | cons op ops ih =>
    by_cases hop : OpRefused p op
    · have hrun := fun fuel => bind_of_error (f := fun _ => batch hash fuel skip ops)
        (batchOp_refused hash fuel skip t hop)
      rw [BatchSafe, if_pos hop]
      constructor
      · intro hall
        exact (hall 0 .rootKeyNotAllowed _ (hrun 0)).2
      · intro hroot fuel e s' h
        cases (hrun fuel).symm.trans h
        exact ⟨rfl, hroot⟩
    · rw [BatchSafe, if_neg hop]
      have hthrows : (∃ e, Fueled.Throws .outOfFuel (fun n => t.batchOp hash n skip op) e) ↔
          ¬t.OpSafe hash skip op := MPT.throws_batchOp hlen
      constructor
      · intro hall
        have hnone : ¬∃ e, Fueled.Throws .outOfFuel (fun n => t.batchOp hash n skip op) e := by
          rintro ⟨e, hout, n, hn⟩
          have hstop := batch_cons_error ops hop hn
          have hthrew : e.stop = .threw (.mpt e) := by
            cases e <;> first | exact absurd rfl hout | rfl
          rw [hthrew] at hstop
          exact (nomatch (hall n _ _ hstop).1)
        refine ⟨not_not.mp (mt hthrows.mpr hnone), fun n t' hn => (ih _).mp fun m e s' hm => ?_⟩
        -- one number of steps does for the operation and for the rest
        have hop' : t.batchOp hash (max n m) skip op = .ok t' :=
          ((MPT.batchOp_steady t op skip).le (fun hu => nomatch hn.symm.trans hu)
            (Nat.le_max_left n m)).trans hn
        have hrest : batch hash (max n m) skip ops (unlocked p (persisted hash p t')) =
            (.error (.threw e), s') := by
          refine (batch_steady ops (Nat.le_max_right n m) ?_).trans hm
          rw [hm]
          nofun
        exact hall (max n m) e s' ((batch_cons_ok hop hop').trans hrest)
      · rintro ⟨hsafe, hrest⟩ fuel e s' h
        cases hrun : t.batchOp hash fuel skip op with
        | error e' =>
          have hstop := (batch_cons_error ops hop hrun).symm.trans h
          have hout : e' ≠ .outOfFuel := by
            rintro rfl
            cases hstop
          exact absurd ⟨e', hout, fuel, hrun⟩ (mt hthrows.mp (not_not_intro hsafe))
        | ok t' =>
          have hstill := (ih (persisted hash p t')).mpr (hrest fuel t' hrun)
          exact hstill fuel e s' ((batch_cons_ok hop hrun).symm.trans h)

/-! ## The exact condition -/

def otherValue : Bytes := List.replicate 30 2

/-- The hash of the leaf of the other value. -/
def otherLeafHash : Bytes :=
  MPT.word 0x9a3ca89442b853983f03071da84ed38c86ce15d5062af535404624128547a0a8

/-- The leaf of `11` below the root. -/
def leafOfShared : Bytes := [0xe0, 0x31, 0x9e] ++ MPT.sharedValue

/-- The root of the keys `11` and `21`, which hold different values, with the value `v`. -/
def rootOfBoth (v : UInt8) : Bytes :=
  [0xf8, 0x51, 0x80, 0xa0] ++ MPT.sharedLeafHash ++ [0xa0] ++ otherLeafHash ++
    List.replicate 13 0x80 ++ [v]

/-- Keccak-256 on these encodings. -/
def otherLeafTable : Bytes → Bytes := MPT.tableHash [
  ([0x80], 0x56e81f171bcc55a6ff8345e692c0f86e5b48e01b996cadc001622fb5e363b421),
  (leafOfShared, 0x37843b3518da0d8b6d4ac7b2577f536b18ccd27af9461bdfdb5aa7652b92d191),
  ([0xe0, 0x31, 0x9e] ++ otherValue,
    0x9a3ca89442b853983f03071da84ed38c86ce15d5062af535404624128547a0a8),
  (rootOfBoth 0x80, 0xb13027a897e18cd5a47a1c7c6a535e4c842fb92a763a2fca23604f0430f256c4),
  (rootOfBoth 7, 0x72866556d36fe243c92a4abd940dfa82cd465565defda522fa281da3af648d00)]

/-- The trie of the keys `11` and `21` on a database without the leaf of `21`. -/
def lacking : MPT where
  _opts := ⟨false, false⟩
  _db := MapDB.batch .empty [.put (otherLeafTable (rootOfBoth 0x80)) (rootOfBoth 0x80),
    .put MPT.sharedLeafHash leafOfShared]
  _root := otherLeafTable (rootOfBoth 0x80)
  journal := []

end LockedTrie
