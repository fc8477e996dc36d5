-- SUMMARY: The map of values with its start key, limit and next key: walking all nodes of a trie, and what is collected on the way.
import TsEthereum.Utils.Account
import TsEthereum.MerkleTrie.Mpt

/-!
# The map of values

`util/asyncWalk.ts` and `getValueMap` of `mpt.ts`. The walk is a generator whose
consumer does not touch the trie, so it is the list of what it yields together
with the set of visited nodes. Byte strings stand for their hex texts. The callback
takes entries up to the limit and then remembers the last key it is given.
-/

open List

open Rlp (Item)
open Nibbles

namespace MPT

/-- What a walk yields, each node with the key above it, and the hashes it has visited. -/
structure Tour where
  found : List (Nibbles × MPTNode)
  visited : List Bytes

/-- The nodes of one walk, then those of the next. -/
def Tour.followedBy (before after : Tour) : Tour where
  found := before.found ++ after.found
  visited := after.visited

/-- How the walk refers to a child of a branch: always by a hash. -/
def childHash (hash : Bytes → Bytes) : Item → Item
  | .bytes childNode => .bytes childNode
  | .list childNode => .bytes (hash (Rlp.encode (.list childNode)))

/-- `_walkTrie` with the `filter`; `none` without enough fuel. A node that cannot be looked up
ends the walk there without an error. -/
def _walkTrie (hash : Bytes → Bytes) (db : MapDB) (filter : MPTNode → Bool) :
    Nat → Item → Nibbles → List Bytes → Option Tour
  | 0, _, _, _ => none
  | fuel + 1, nodeHash, currentKey, visited =>
    if nodeHash = .bytes (EMPTY_TRIE_ROOT hash) then some ⟨[], visited⟩
    else
      match lookupNode db nodeHash with
      | .error _ => some ⟨[], visited⟩
      | .ok node =>
        if hash node.serialize ∈ visited then some ⟨[], visited⟩
        else
          let here : Tour :=
            ⟨if filter node then [(currentKey, node)] else [], hash node.serialize :: visited⟩
          match node with
          | .branch _branches _ =>
            (List.finRange 16).foldlM (fun tour nibble =>
              (_walkTrie hash db filter fuel (childHash hash (_branches nibble))
                (currentKey ++ [nibble]) tour.visited).map tour.followedBy) here
          | .extension _nibbles _value =>
            (_walkTrie hash db filter fuel _value (currentKey ++ _nibbles) here.visited).map
              here.followedBy
          | .leaf _ _ => some here

/-- The filter of `walkAllValueNodes`. -/
def isValueNode (node : MPTNode) : Bool :=
  match node with
  | .leaf _ _ => true
  | .branch _ _ => node.value.isSome
  | .extension _ _ => false

def walkAllValueNodes (hash : Bytes → Bytes) (fuel : Nat) (t : MPT) :
    Option (List (Nibbles × MPTNode)) :=
  (_walkTrie hash t._db isValueNode fuel (.bytes t._root) [] []).map Tour.found

/-- What `getValueMap` answers. -/
structure ValueMap where
  values : OrderedMap Bytes Item
  nextKey : Option Bytes

/-- The variables of `getValueMap`. -/
structure Collecting extends ValueMap where
  inRange : Bool
  i : Nat

/-- The body of the callback, for a leaf that is in range. -/
def Collecting.take (limit : Option Nat) (state : Collecting) (keyBytes : Bytes) (_value : Item) :
    Collecting :=
  if limit.all (state.i < ·) then
    { state with values := state.values.set keyBytes _value, i := state.i + 1 }
  else if limit = some state.i then { state with nextKey := some keyBytes }
  else state

/-- The callback of `getValueMap`. -/
def onValueNode (startKey : Int) (limit : Option Nat) (state : Collecting) :
    Nibbles × MPTNode → Collecting
  | (currentKey, .leaf _nibbles _value) =>
    let keyBytes := nibblesTypeToPackedBytes (currentKey ++ _nibbles)
    if state.inRange = false ∧ bytesToBigInt keyBytes < startKey then state
    else { state with inRange := true }.take limit keyBytes _value
  | _ => state

def getValueMap (hash : Bytes → Bytes) (fuel : Nat) (t : MPT) (startKey : Int)
    (limit : Option Nat) : Option ValueMap :=
  (walkAllValueNodes hash fuel t).map fun found =>
    (found.foldl (onValueNode startKey limit)
      ⟨⟨.empty, none⟩, limit.isNone, 0⟩).toValueMap

/-! ## Collecting -/

/-- The leaves among the nodes of a walk, with their whole keys. -/
def leaves (found : List (Nibbles × MPTNode)) : List (Nibbles × Item) :=
  found.filterMap fun
    | (currentKey, .leaf _nibbles _value) => some (currentKey ++ _nibbles, _value)
    | _ => none

/-- An entry under the bytes of its key. -/
def packed (e : Nibbles × Item) : Bytes × Item := (nibblesTypeToPackedBytes e.1, e.2)

/-- The entries in question: without a limit the start key is not looked at. -/
def fromKey (startKey : Int) (limit : Option Nat) (all : List (Bytes × Item)) :
    List (Bytes × Item) :=
  if limit.isNone then all else all.filter fun e => startKey ≤ bytesToBigInt e.1

def upTo {α : Type} : Option Nat → List α → List α
  | none, l => l
  | some n, l => l.take n

def beyond {α : Type} : Option Nat → List α → List α
  | none, _ => []
  | some n, l => l.drop n

def Increasing (all : List (Bytes × Item)) : Prop :=
  all.Pairwise fun a b => bytesToBigInt a.1 < bytesToBigInt b.1

/-- What the variables of `getValueMap` hold after the entries `all`. -/
structure Collected (startKey : Int) (limit : Option Nat) (all : List (Bytes × Item))
    (state : Collecting) : Prop where
  values : state.values.entries = upTo limit (fromKey startKey limit all)
  nextKey : state.nextKey = (beyond limit (fromKey startKey limit all)).getLast?.map Prod.fst
  inRange : state.inRange = (limit.isNone || !(fromKey startKey limit all).isEmpty)
  i : state.i = state.values.entries.length

theorem setEntry_of_fresh {κ ν : Type} [DecidableEq κ] {k : κ} {es : List (κ × ν)}
    (h : ∀ e ∈ es, e.1 ≠ k) (v : ν) : OrderedMap.setEntry k v es = es ++ [(k, v)] := by
  induction es with
  | nil => rfl
  | cons e es ih =>
    have hrest := ih fun x hx => h x (mem_cons_of_mem _ hx)
    simp only [OrderedMap.setEntry, if_neg (h e mem_cons_self), hrest, cons_append]

theorem upTo_subset {α : Type} (limit : Option Nat) (l : List α) : upTo limit l ⊆ l := by
  cases limit with
  | none => exact List.Subset.refl l
  | some n => exact take_subset n l

theorem fromKey_subset (startKey : Int) (limit : Option Nat) (all : List (Bytes × Item)) :
    fromKey startKey limit all ⊆ all := by
  unfold fromKey
  split
  · exact List.Subset.refl all
  · exact filter_subset_self all

section

variable {startKey : Int} {limit : Option Nat} {all : List (Bytes × Item)} {state : Collecting}

theorem collected_nil : Collected startKey limit [] ⟨⟨.empty, none⟩, limit.isNone, 0⟩ := by
  have hnone : fromKey startKey limit [] = [] := by cases limit <;> rfl
  constructor
  · rw [hnone]
    cases limit with
    | none => rfl
    | some n => exact take_nil.symm
  · rw [hnone]
    cases limit with
    | none => rfl
    | some n => simp [beyond]
  · simp [hnone]
  · rfl

variable {keyBytes : Bytes} {_value : Item}

/-- One entry in range more. -/
theorem Collected.take (h : Collected startKey limit all state) (hfresh : ∀ e ∈ all, e.1 ≠ keyBytes)
    (hrange : fromKey startKey limit (all ++ [(keyBytes, _value)]) =
      fromKey startKey limit all ++ [(keyBytes, _value)]) :
    Collected startKey limit (all ++ [(keyBytes, _value)])
      ({ state with inRange := true }.take limit keyBytes _value) := by
  have hset : (state.values.set keyBytes _value).entries =
      state.values.entries ++ [(keyBytes, _value)] := by
    refine setEntry_of_fresh (fun e he => hfresh e ?_) _value
    rw [h.values] at he
    exact fromKey_subset _ _ _ (upTo_subset _ _ he)
  have hvalues := h.values
  have hi := h.i
  have hnext := h.nextKey
  generalize fromKey startKey limit all = found at *
  cases limit with
  | none =>
    refine ⟨?_, ?_, ?_, ?_⟩
    · rw [hrange]
      exact hset.trans (congrArg (· ++ _) hvalues)
    · exact hnext
    · rfl
    · simp [Collecting.take, hset, hi]
  | some n =>
    simp only [upTo, beyond] at hvalues hnext
    rw [hvalues, length_take] at hi
    have hrest : (false || !(found ++ [(keyBytes, _value)]).isEmpty) = true := by simp
    by_cases hlt : state.i < n
    · -- the limit is not reached yet
      have hlen : found.length < n := by omega
      have htake : { state with inRange := true }.take (some n) keyBytes _value =
          { state with values := state.values.set keyBytes _value, i := state.i + 1, inRange := true } := by
        simp [Collecting.take, hlt]
      rw [htake]
      refine ⟨?_, ?_, ?_, ?_⟩
      · rw [hrange]
        simp only [upTo, hset, hvalues]
        rw [take_of_length_le (by omega), take_of_length_le (by simp; omega)]
      · rw [hrange]
        simp only [beyond, hnext]
        rw [drop_of_length_le (by omega), drop_of_length_le (by simp; omega)]
      · rw [hrange]
        exact hrest.symm
      · simp only [hset, hvalues, length_append, length_take, length_singleton]
        omega
    · have hn : n = state.i := by omega
      have hlen : n ≤ found.length := by omega
      have htake : { state with inRange := true }.take (some n) keyBytes _value =
          { state with nextKey := some keyBytes, inRange := true } := by
        simp [Collecting.take, hn]
      rw [htake]
      refine ⟨?_, ?_, ?_, ?_⟩
      · rw [hrange]
        simp only [upTo, hvalues, take_append_of_le_length hlen]
      · rw [hrange]
        simp [beyond, drop_append_of_le_length hlen]
      · rw [hrange]
        exact hrest.symm
      · simp only [hvalues, length_take]
        omega

/-- With an entry before the start key all entries up to it are left out. -/
theorem fromKey_concat_of_lt (hsorted : Increasing (all ++ [(keyBytes, _value)]))
    (hlt : bytesToBigInt keyBytes < startKey) (n : Nat) : fromKey startKey (some n) all = [] ∧
      fromKey startKey (some n) (all ++ [(keyBytes, _value)]) = [] := by
  have hbefore (e : Bytes × Item) (he : e ∈ all) : ¬ decide (startKey ≤ bytesToBigInt e.1) = true := by
    have hkey := (pairwise_append.mp hsorted).2.2 e he _ (mem_singleton_self _)
    exact fun hstart => absurd (of_decide_eq_true hstart) (not_le_of_gt (lt_trans hkey hlt))
  have hlast : ¬ decide (startKey ≤ bytesToBigInt keyBytes) = true :=
    fun hstart => absurd (of_decide_eq_true hstart) (not_le_of_gt hlt)
  refine ⟨filter_eq_nil_iff.mpr hbefore, filter_eq_nil_iff.mpr fun e he => ?_⟩
  rcases mem_append.mp he with he | he
  · exact hbefore e he
  · rwa [mem_singleton.mp he]

theorem fromKey_concat_of_le (hle : limit = none ∨ startKey ≤ bytesToBigInt keyBytes) :
    fromKey startKey limit (all ++ [(keyBytes, _value)]) =
      fromKey startKey limit all ++ [(keyBytes, _value)] := by
  cases limit with
  | none => rfl
  | some n =>
    have hkey := hle.resolve_left nofun
    simp [fromKey, filter_append, hkey]

/-- What one node of the walk changes. -/
theorem Collected.step {node : Nibbles × MPTNode} {found : List (Nibbles × MPTNode)}
    (h : Collected startKey limit ((leaves found).map packed) state)
    (hsorted : Increasing ((leaves (found ++ [node])).map packed)) :
    Collected startKey limit ((leaves (found ++ [node])).map packed)
      (onValueNode startKey limit state node) := by
  obtain ⟨currentKey, node⟩ := node
  have hsplit : leaves (found ++ [(currentKey, node)]) =
      leaves found ++ leaves [(currentKey, node)] := filterMap_append
  cases node with
  | branch _branches _value | extension _nibbles _value =>
    have hsame : leaves (found ++ [_]) = leaves found := hsplit.trans (append_nil _)
    rw [hsame]
    exact h
  | leaf _nibbles _value =>
    have hmap : (leaves (found ++ [(currentKey, .leaf _nibbles _value)])).map packed =
        (leaves found).map packed ++
          [(nibblesTypeToPackedBytes (currentKey ++ _nibbles), _value)] := by
      rw [hsplit, map_append]
      rfl
    rw [hmap] at hsorted ⊢
    generalize (leaves found).map packed = all at h hsorted ⊢
    have hlt (e : Bytes × Item) (he : e ∈ all) :=
      (pairwise_append.mp hsorted).2.2 e he _ (mem_singleton_self _)
    have hfresh (e : Bytes × Item) (he : e ∈ all) :
        e.1 ≠ nibblesTypeToPackedBytes (currentKey ++ _nibbles) :=
      fun heq => absurd (hlt e he) (by rw [heq]; exact lt_irrefl _)
    simp only [onValueNode]
    split
    · next hskip =>
      -- nothing has been in range so far, nor is this entry
      obtain ⟨n, rfl⟩ : ∃ n, limit = some n := by
        cases limit with
        | none => cases h.inRange.symm.trans hskip.1
        | some n => exact ⟨n, rfl⟩
      obtain ⟨hbefore, hnone⟩ := fromKey_concat_of_lt hsorted hskip.2 n
      have hsame := hbefore.trans hnone.symm
      exact ⟨hsame ▸ h.values, hsame ▸ h.nextKey, hsame ▸ h.inRange, h.i⟩
    · next hskip =>
      refine h.take hfresh (fromKey_concat_of_le ?_)
      cases limit with
      | none => exact .inl rfl
      | some n =>
        refine .inr (le_of_not_gt fun hgt => hskip ⟨?_, hgt⟩)
        rw [h.inRange, (fromKey_concat_of_lt hsorted hgt n).1]
        rfl

/-- What the variables hold when the walk is over. -/
theorem collected_foldl {found : List (Nibbles × MPTNode)}
    (hsorted : Increasing ((leaves found).map packed)) :
    Collected startKey limit ((leaves found).map packed)
      (found.foldl (onValueNode startKey limit) ⟨⟨.empty, none⟩, limit.isNone, 0⟩) := by
  induction found using List.reverseRecOn with
  | nil => exact collected_nil
  | append_singleton found node ih =>
    have hbefore : Increasing ((leaves found).map packed) := by
      refine List.Pairwise.sublist ?_ hsorted
      exact ((sublist_append_left found [node]).filterMap _).map packed
    rw [foldl_append]
    exact (ih hbefore).step hsorted

end

/-! ## Which answers are right -/

/-- The answer lists the entries in question up to the limit, with the first key after them. -/
structure Answers (all : List (Bytes × Item)) (startKey : Int) (limit : Option Nat)
    (answer : ValueMap) : Prop where
  values : answer.values.entries = upTo limit (fromKey startKey limit all)
  nextKey : answer.nextKey = (beyond limit (fromKey startKey limit all)).head?.map Prod.fst

/-- What is left of a list beginning with `a` and ends with the key of `a` is `a` alone. -/
theorem eq_singleton_of_getLast? {κ ν : Type} {a : κ × ν} {rest l : List (κ × ν)}
    (h : l.Sublist (a :: rest)) (hnodup : ((a :: rest).map Prod.fst).Nodup)
    (hlast : l.getLast?.map Prod.fst = some a.1) : l = [a] := by
  obtain ⟨b, hb, hab⟩ := Option.map_eq_some_iff.mp hlast
  have hrest : b ∉ rest := fun hmem => (nodup_cons.mp hnodup).1 (hab ▸ mem_map_of_mem hmem)
  cases h with
  | cons _ hsub => exact absurd (hsub.subset (mem_of_getLast? hb)) hrest
  | @cons_cons l' _ _ hsub =>
    cases l' with
    | nil => rfl
    | cons c l' =>
      rw [getLast?_cons_cons] at hb
      exact absurd (hsub.subset (mem_of_getLast? hb)) hrest

/-- Of a part of the entries the first `n` and the last key after them are those of all entries
exactly if it is their first `n + 1`. -/
theorem upTo_beyond_iff {κ ν : Type} {part l : List (κ × ν)} (h : part.Sublist l)
    (hnodup : (l.map Prod.fst).Nodup) (limit : Option Nat) : (upTo limit part = upTo limit l ∧
        (beyond limit part).getLast?.map Prod.fst = (beyond limit l).head?.map Prod.fst) ↔
      part = upTo (limit.map (· + 1)) l := by
  cases limit with
  | none => exact ⟨fun h => h.1, fun h => ⟨h, rfl⟩⟩
  | some n =>
    simp only [upTo, beyond, Option.map_some]
    constructor
    · rintro ⟨hvalues, hnext⟩
      have hdrop : (part.drop n).Sublist (l.drop n) := by
        apply (append_sublist_append_left (l.take n)).mp
        rw [take_append_drop, ← hvalues, take_append_drop]
        exact h
      have hone : part.drop n = (l.drop n).take 1 := by
        cases hl : l.drop n with
        | nil => exact List.sublist_nil.mp (hl ▸ hdrop)
        | cons a rest =>
          rw [hl] at hdrop hnext
          refine eq_singleton_of_getLast? hdrop ?_ hnext
          rw [← hl, map_drop]
          exact hnodup.sublist (drop_sublist n _)
      rw [← take_append_drop n part, hvalues, hone, take_add]
    · rintro rfl
      rw [take_take, drop_take]
      refine ⟨by simp, ?_⟩
      simp only [Nat.add_sub_cancel_left]
      cases l.drop n <;> rfl

end MPT
