-- SUMMARY: Where the walk of a key ends: at the node of the key, at no node, or at a node that cannot be looked up.
import TsEthereum.Base.Fueled
import TsEthereum.MerkleTrie.Mpt

/-!
# Walks

`Leads` and `Stops` say where a key leads in a database and what is there, with no
mention of steps and stacks. A walk comes to the same place, if it is long enough.
-/

open List Except

open Rlp (Item)
open Nibbles

namespace MPT

/-- From `root`, the key leads to the reference `ref` with `rest` left of it, past the nodes
`above`, the nearest one first. An extension of an empty path leaves no trace. -/
inductive Leads (db : MapDB) (root : Item) (key : Nibbles) : List MPTNode → Item → Nibbles → Prop
  | root : Leads db root key [] root key
  | branch {above : List MPTNode} {ref child _value : Item} {_branches : Nibble → Item}
      {i : Nibble} {rest : Nibbles} (hleads : Leads db root key above ref (i :: rest))
      (hnode : lookupNode db ref = .ok (.branch _branches _value))
      (hchild : MPTNode.getBranch _branches i = some child) :
      Leads db root key (.branch _branches _value :: above) child rest
  | extension {above : List MPTNode} {ref _value : Item} {_nibbles rest : Nibbles}
      (hleads : Leads db root key above ref (_nibbles ++ rest))
      (hnode : lookupNode db ref = .ok (.extension _nibbles _value)) :
      Leads db root key (if _nibbles = [] then above else .extension _nibbles _value :: above)
        _value rest

/-- What is found where a key goes no further. -/
inductive Stops (db : MapDB) (ref : Item) (rest : Nibbles) : Except MPTError (Option MPTNode) → Prop
  | unreadable {e : MPTError} (hnode : lookupNode db ref = .error e) : Stops db ref rest (.error e)
  | branch {_branches : Nibble → Item} {_value : Item} (hrest : rest = [])
      (hnode : lookupNode db ref = .ok (.branch _branches _value)) :
      Stops db ref rest (.ok (some (.branch _branches _value)))
  | noChild {_branches : Nibble → Item} {_value : Item} {i : Nibble} {rest' : Nibbles}
      (hrest : rest = i :: rest') (hnode : lookupNode db ref = .ok (.branch _branches _value))
      (hchild : MPTNode.getBranch _branches i = none) : Stops db ref rest (.ok none)
  | leaf {_value : Item} (hnode : lookupNode db ref = .ok (.leaf rest _value)) :
      Stops db ref rest (.ok (some (.leaf rest _value)))
  | otherLeaf {_nibbles : Nibbles} {_value : Item}
      (hnode : lookupNode db ref = .ok (.leaf _nibbles _value)) (hother : _nibbles ≠ rest) :
      Stops db ref rest (.ok none)
  | otherExtension {_nibbles : Nibbles} {_value : Item}
      (hnode : lookupNode db ref = .ok (.extension _nibbles _value))
      (hother : ¬_nibbles <+: rest) : Stops db ref rest (.ok none)

/-- The way of a key in a trie ends in `result`, below the nodes `above`. -/
def Arrives (t : MPT) (key : Bytes) (above : List MPTNode)
    (result : Except MPTError (Option MPTNode)) : Prop :=
  ∃ ref rest, Leads t._db (.bytes t._root) (bytesToNibbles key) above ref rest ∧
    Stops t._db ref rest result

/-- A node on the path of the key cannot be looked up. -/
def Breaks (t : MPT) (key : Bytes) (e : MPTError) : Prop := ∃ above, Arrives t key above (.error e)

/-- The path of the key comes to an end. -/
def Ends (t : MPT) (key : Bytes) : Prop := ∃ above result, Arrives t key above result

/-- No node on the path of the key is malformed; it may be missing. -/
def Readable (t : MPT) (key : Bytes) : Prop := ∀ e, Breaks t key e → e = .missingNode

/-! ## The state of a walk -/

/-- The nibbles and the stack of a walk that has come to a place. -/
structure WalkAt (key : Nibbles) (above : List MPTNode) (rest : Nibbles) (progress : Nat)
    (stack : List (Nat × MPTNode)) : Prop where
  nibbles : progress + rest.length = key.length
  remaining : key.drop progress = rest
  nodes : (stack.filter (fun e => e.1 ≠ progress)).map Prod.snd = above
  behind : ∀ e ∈ stack, e.1 ≤ progress

variable {db : MapDB} {root ref : Item} {key rest : Nibbles} {above : List MPTNode}
  {result : Except MPTError (Option MPTNode)} {progress : Nat} {stack : List (Nat × MPTNode)}

theorem WalkAt.start (key : Nibbles) : WalkAt key [] key 0 [] where
  nibbles := Nat.zero_add _
  remaining := rfl
  nodes := rfl
  behind := fun _ he => nomatch he

theorem WalkAt.map_stackSet (h : WalkAt key above rest progress stack) (node : MPTNode) :
    (stackSet stack progress node).map Prod.snd = node :: above :=
  congrArg (node :: ·) h.nodes

theorem WalkAt.step {p : Nibbles} (h : WalkAt key above (p ++ rest) progress stack)
    (node : MPTNode) :
    WalkAt key (if p = [] then above else node :: above) rest (progress + p.length)
      (stackSet stack progress node) where
  nibbles := by
    have hlength := h.nibbles
    rw [length_append] at hlength
    omega
  remaining := by
    rw [← drop_drop, h.remaining, drop_left]
  nodes := by
    cases p with
    | nil => simpa [stackSet] using h.nodes
    | cons x p =>
      -- the place moves on, so every entry is behind it
      have hbehind : ∀ e ∈ stackSet stack progress node, e.1 ≤ progress := by
        intro e he
        rcases mem_cons.mp he with rfl | he
        · exact le_refl progress
        · exact h.behind e (mem_of_mem_filter he)
      have hkeep : (stackSet stack progress node).filter
          (fun e => e.1 ≠ progress + (x :: p).length) = stackSet stack progress node := by
        apply List.filter_eq_self.mpr
        intro e he
        have hle := hbehind e he
        simp only [length_cons, ne_eq, decide_eq_true_eq]
        omega
      rw [hkeep, if_neg (cons_ne_nil x p), h.map_stackSet]
  behind := by
    intro e he
    rcases mem_cons.mp he with rfl | he
    · exact Nat.le_add_right progress _
    · exact (h.behind e (mem_of_mem_filter he)).trans (Nat.le_add_right progress _)

/-! ## One step of a walk -/

theorem walkPath_branch {child _value : Item} {_branches : Nibble → Item} {i : Nibble}
    (h : WalkAt key above (i :: rest) progress stack)
    (hnode : lookupNode db ref = .ok (.branch _branches _value))
    (hchild : MPTNode.getBranch _branches i = some child) (n : Nat) :
    walkPath db key (n + 1) ref progress stack =
      walkPath db key n child (progress + 1) (stackSet stack progress (.branch _branches _value)) := by
  simp only [walkPath, hnode, h.remaining, hchild]

theorem walkPath_extension {_value : Item} {_nibbles : Nibbles}
    (h : WalkAt key above (_nibbles ++ rest) progress stack)
    (hnode : lookupNode db ref = .ok (.extension _nibbles _value)) (n : Nat) :
    walkPath db key (n + 1) ref progress stack =
      walkPath db key n _value (progress + _nibbles.length)
        (stackSet stack progress (.extension _nibbles _value)) := by
  have hpath : _nibbles.isPrefixOf (_nibbles ++ rest) = true :=
    isPrefixOf_iff_prefix.mpr (prefix_append _nibbles rest)
  simp only [walkPath, hnode, h.remaining, hpath, if_true]

/-- A walk has come to an end below the nodes `above`. -/
def Walk.Arrived (w : Walk) (above : List MPTNode) : Except MPTError (Option MPTNode) → Prop
  | .error e => w.result = .error e
  | .ok none => ∃ remaining, w.result = .ok (none, remaining)
  | .ok (some node) => w.result = .ok (some node, []) ∧ w.stack.map Prod.snd = node :: above

theorem walkPath_stops (h : WalkAt key above rest progress stack) (hstop : Stops db ref rest result)
    (n : Nat) : (walkPath db key (n + 1) ref progress stack).Arrived above result := by
  cases hstop with
  | unreadable hnode => simp only [walkPath, hnode, Walk.Arrived]
  | branch hrest hnode =>
    simp only [walkPath, hnode, h.remaining, hrest]
    exact ⟨rfl, h.map_stackSet _⟩
  | noChild hrest hnode hchild =>
    simp only [walkPath, hnode, h.remaining, hrest, hchild]
    exact ⟨_, rfl⟩
  | leaf hnode =>
    have hshort : ¬rest.length > rest.length := Nat.lt_irrefl _
    have hpath : rest.isPrefixOf rest = true := isPrefixOf_iff_prefix.mpr (prefix_refl rest)
    simp only [walkPath, hnode, h.remaining, hshort, hpath, if_true, if_false]
    exact ⟨rfl, h.map_stackSet _⟩
  | otherLeaf hnode hother =>
    simp only [walkPath, hnode, h.remaining]
    split
    · exact ⟨_, rfl⟩
    · next hshort =>
      split
      · next hpath =>
        -- a path that begins the rest and is no shorter is the rest
        have hbegins := isPrefixOf_iff_prefix.mp hpath
        exact absurd (hbegins.eq_of_length (le_antisymm hbegins.length_le (not_lt.mp hshort))) hother
      · exact ⟨_, rfl⟩
  | otherExtension hnode hother =>
    have hpath : ¬List.isPrefixOf _ rest = true := fun h => hother ( isPrefixOf_iff_prefix.mp h)
    simp only [walkPath, hnode, h.remaining, hpath]
    exact ⟨_, rfl⟩

/-- At every place a key stops or is led on by a branch or an extension. -/
theorem stops_or_goes_on (db : MapDB) (ref : Item) (rest : Nibbles) :
    (∃ result, Stops db ref rest result) ∨ (∃ i rest' _branches _value child, rest = i :: rest' ∧
      lookupNode db ref = .ok (.branch _branches _value) ∧
      MPTNode.getBranch _branches i = some child) ∨
    ∃ _nibbles rest' _value, rest = _nibbles ++ rest' ∧
      lookupNode db ref = .ok (.extension _nibbles _value) := by
  cases hnode : lookupNode db ref with
  | error e => exact .inl ⟨_, .unreadable hnode⟩
  | ok node =>
    cases node with
    | branch _branches _value =>
      cases rest with
      | nil => exact .inl ⟨_, .branch rfl hnode⟩
      | cons i rest =>
        cases hchild : MPTNode.getBranch _branches i with
        | none => exact .inl ⟨_, .noChild rfl hnode hchild⟩
        | some child => exact .inr (.inl ⟨i, rest, _branches, _value, child, rfl, rfl, hchild⟩)
    | extension _nibbles _value =>
      by_cases hpath : _nibbles <+: rest
      · obtain ⟨rest', rfl⟩ := hpath
        exact .inr (.inr ⟨_nibbles, rest', _value, rfl, rfl⟩)
      · exact .inl ⟨_, .otherExtension hnode hpath⟩
    | leaf _nibbles _value =>
      by_cases hpath : _nibbles = rest
      · subst hpath
        exact .inl ⟨_, .leaf hnode⟩
      · exact .inl ⟨_, .otherLeaf hnode hpath⟩

/-! ## Whole walks -/

/-- A walk follows where the key leads. -/
theorem walkPath_leads (h : Leads db root key above ref rest) :
    ∃ n progress stack, WalkAt key above rest progress stack ∧
      ∀ fuel, walkPath db key (fuel + n) root 0 [] = walkPath db key fuel ref progress stack := by
  induction h with
  | root => exact ⟨0, 0, [], .start key, fun _ => rfl⟩
  | branch hleads hnode hchild ih =>
    obtain ⟨n, progress, stack, hat, hwalk⟩ := ih
    refine ⟨n + 1, progress + 1, _, WalkAt.step (p := [_]) hat _, fun fuel => ?_⟩
    have hmore := hwalk (fuel + 1)
    rw [walkPath_branch hat hnode hchild] at hmore
    exact (congrArg (walkPath _ _ · _ 0 []) (Nat.add_right_comm fuel n 1)).trans hmore
  | extension hleads hnode ih =>
    obtain ⟨n, progress, stack, hat, hwalk⟩ := ih
    refine ⟨n + 1, _, _, hat.step _, fun fuel => ?_⟩
    have hmore := hwalk (fuel + 1)
    rw [walkPath_extension hat hnode] at hmore
    exact (congrArg (walkPath _ _ · _ 0 []) (Nat.add_right_comm fuel n 1)).trans hmore

/-- Where steps suffice, a walk comes to a place where the key stops. -/
theorem leads_walkPath (fuel : Nat) (hleads : Leads db root key above ref rest)
    (hat : WalkAt key above rest progress stack)
    (hends : (walkPath db key fuel ref progress stack).result ≠ .error .outOfFuel) :
    ∃ above' ref' rest' result, Leads db root key above' ref' rest' ∧ Stops db ref' rest' result ∧
      (walkPath db key fuel ref progress stack).Arrived above' result := by
  induction fuel generalizing above ref rest progress stack with
  | zero => exact absurd rfl hends
  | succ n ih =>
    obtain ⟨result, hstop⟩ | ⟨i, rest', _branches, _value, child, rfl, hnode, hchild⟩ |
      ⟨_nibbles, rest', _value, rfl, hnode⟩ := stops_or_goes_on db ref rest
    · exact ⟨above, ref, rest, result, hleads, hstop, walkPath_stops hat hstop n⟩
    · rw [walkPath_branch hat hnode hchild] at hends ⊢
      exact ih (hleads.branch hnode hchild) (WalkAt.step (p := [i]) hat _) hends
    · rw [walkPath_extension hat hnode] at hends ⊢
      exact ih (hleads.extension hnode) (hat.step _) hends

theorem walkPath_steady (n : Nat) (ref : Item) (progress : Nat) (stack : List (Nat × MPTNode))
    (h : (walkPath db key n ref progress stack).result ≠ .error .outOfFuel) :
    walkPath db key (n + 1) ref progress stack = walkPath db key n ref progress stack := by
  induction n generalizing ref progress stack with
  | zero => exact absurd rfl h
  | succ n ih =>
    rw [walkPath] at h ⊢
    rw [walkPath]
    cases hnode : lookupNode db ref with
    | error e => rfl
    | ok node =>
      simp only [hnode] at h ⊢
      cases node with
      | branch _branches _value =>
        cases hrest : key.drop progress with
        | nil => rfl
        | cons i rest =>
          simp only [hrest] at h ⊢
          cases hchild : MPTNode.getBranch _branches i with
          | none => rfl
          | some child =>
            simp only [hchild] at h ⊢
            exact ih _ _ _ h
      | leaf _nibbles _value => rfl
      | extension _nibbles _value =>
        simp only at h ⊢
        split
        · next hpath =>
          rw [if_pos hpath] at h
          exact ih _ _ _ h
        · rfl

/-! ## Paths -/

variable {t : MPT} {k : Bytes} {path : Path} {e : MPTError}

theorem lookupNode_ne_outOfFuel (db : MapDB) (ref : Item) :
    lookupNode db ref ≠ .error .outOfFuel := by
  have hraw : ∀ raw, MPTNode.decodeRawMPTNode raw ≠ .error .outOfFuel := by
    intro raw h
    unfold MPTNode.decodeRawMPTNode at h
    split at h
    · cases h
    · split at h
      · dsimp only at h
        split at h <;> cases h
      · cases h
  intro h
  unfold lookupNode at h
  split at h
  · exact hraw _ h
  · split at h
    · cases h
    · unfold MPTNode.decodeMPTNode at h
      split at h
      · cases h
      · cases h
      · exact hraw _ h

theorem Breaks.ne_outOfFuel (h : Breaks t k e) : e ≠ .outOfFuel := by
  obtain ⟨above, ref, rest, -, hstop⟩ := h
  cases hstop with
  | unreadable hnode =>
    rintro rfl
    exact lookupNode_ne_outOfFuel _ _ hnode

/-- A walk that is long enough comes to where the way of the key ends. -/
theorem Arrives.walkPath (h : Arrives t k above result) :
    ∃ n, (walkPath t._db (bytesToNibbles k) n (.bytes t._root) 0 []).Arrived above result := by
  obtain ⟨ref, rest, hleads, hstop⟩ := h
  obtain ⟨n, progress, stack, hat, hwalk⟩ := walkPath_leads hleads
  refine ⟨1 + n, ?_⟩
  rw [hwalk 1]
  exact walkPath_stops hat hstop 0

theorem arrives_walkPath (n : Nat)
    (h : (walkPath t._db (bytesToNibbles k) n (.bytes t._root) 0 []).result ≠ .error .outOfFuel) :
    ∃ above result, Arrives t k above result ∧
      (MPT.walkPath t._db (bytesToNibbles k) n (.bytes t._root) 0 []).Arrived above result := by
  obtain ⟨above, ref, rest, result, hleads, hstop, harrived⟩ :=
    leads_walkPath n .root (WalkAt.start _) h
  exact ⟨above, result, ⟨ref, rest, hleads, hstop⟩, harrived⟩

theorem breaks_of_walkPath {n : Nat} (hout : e ≠ .outOfFuel)
    (h : ((walkPath t._db (bytesToNibbles k) n (.bytes t._root) 0 []).result.map fun _ => ()) =
      .error e) : Breaks t k e := by
  have hresult : (walkPath t._db (bytesToNibbles k) n (.bytes t._root) 0 []).result = .error e := by
    cases hw : (walkPath t._db (bytesToNibbles k) n (.bytes t._root) 0 []).result with
    | error e' =>
      rw [hw] at h
      exact congrArg _ (error.inj h)
    | ok x =>
      rw [hw] at h
      cases h
  obtain ⟨above, result, harrives, harrived⟩ := arrives_walkPath n
    (fun h' => hout (error.inj (hresult.symm.trans h')))
  match result with
  | .error e' =>
    obtain rfl : e = e' := error.inj (hresult.symm.trans harrived)
    exact ⟨above, harrives⟩
  | .ok none =>
    obtain ⟨_, hok⟩ := harrived
    exact (nomatch hresult.symm.trans hok)
  | .ok (some _) => exact (nomatch hresult.symm.trans harrived.1)

theorem findPath_steady (t : MPT) (k : Bytes) :
    Fueled.Steady .outOfFuel fun n => findPath n t k false := by
  intro n hn
  have hends : (walkPath t._db (bytesToNibbles k) n (.bytes t._root) 0 []).result ≠
      .error .outOfFuel := fun h => hn (by simp only [findPath, h])
  simp only [findPath, walkPath_steady n _ _ _ hends]

/-- What `findPath` makes of the end of a walk: a missing node is passed over. -/
theorem findPath_of_arrived {n : Nat}
    (h : (walkPath t._db (bytesToNibbles k) n (.bytes t._root) 0 []).Arrived above result) :
    ((result = .error .missingNode ∨ result = .ok none) ∧
      ∃ path, findPath n t k false = .ok path ∧ path.node = none) ∨
    (∃ e, e ≠ .missingNode ∧ result = .error e ∧ findPath n t k false = .error e) ∨
    ∃ node, result = .ok (some node) ∧
      findPath n t k false = .ok ⟨some node, [], node :: above⟩ := by
  let walk := walkPath t._db (bytesToNibbles k) n (.bytes t._root) 0 []
  match result with
  | .error e =>
    have hresult : (walkPath t._db (bytesToNibbles k) n (.bytes t._root) 0 []).result = .error e := h
    by_cases hmissing : e = .missingNode
    · subst hmissing
      refine .inl ⟨.inl rfl, ⟨none, [], walk.stack.map Prod.snd⟩, ?_, rfl⟩
      simp only [findPath, hresult, Bool.false_eq_true, if_false, walk]
    · refine .inr (.inl ⟨e, hmissing, rfl, ?_⟩)
      cases e <;> first | exact absurd rfl hmissing | simp only [findPath, hresult]
  | .ok none =>
    obtain ⟨remaining, hresult⟩ := h
    refine .inl ⟨.inr rfl, ⟨none, remaining, walk.stack.map Prod.snd⟩, ?_, rfl⟩
    simp only [findPath, hresult, walk]
  | .ok (some node) =>
    obtain ⟨hresult, hstack⟩ := h
    exact .inr (.inr ⟨node, rfl, by simp only [findPath, hresult, hstack]⟩)

theorem arrives_findPath {n : Nat} (h : findPath n t k false ≠ .error .outOfFuel) :
    ∃ above result, Arrives t k above result ∧
      (walkPath t._db (bytesToNibbles k) n (.bytes t._root) 0 []).Arrived above result :=
  arrives_walkPath n fun hwalk => h (by simp only [findPath, hwalk])

/-- `findPath` throws where a node on the path is malformed; a missing one is passed over. -/
theorem throws_findPath : Fueled.Throws .outOfFuel (fun n => findPath n t k false) e ↔
      e ≠ .missingNode ∧ Breaks t k e := by
  constructor
  · rintro ⟨hout, n, hn⟩
    obtain ⟨above, result, harrives, harrived⟩ :=
      arrives_findPath (fun h => hout (error.inj (hn.symm.trans h)))
    obtain ⟨-, path, hok, -⟩ | ⟨e', hmissing, rfl, herror⟩ | ⟨node, -, hok⟩ :=
      findPath_of_arrived harrived
    · cases hn.symm.trans hok
    · obtain rfl : e = e' := error.inj (hn.symm.trans herror)
      exact ⟨hmissing, above, harrives⟩
    · cases hn.symm.trans hok
  · rintro ⟨hmissing, hbreaks⟩
    refine ⟨hbreaks.ne_outOfFuel, ?_⟩
    obtain ⟨above, harrives⟩ := hbreaks
    obtain ⟨n, harrived⟩ := harrives.walkPath
    obtain ⟨hresult | hresult, -⟩ | ⟨e', -, hresult, herror⟩ | ⟨node, hresult, -⟩ :=
      findPath_of_arrived harrived
    · exact absurd (error.inj hresult) hmissing
    · cases hresult
    · cases hresult
      exact ⟨n, herror⟩
    · cases hresult

/-- The node of the key is found, with the stack of the nodes down to it. -/
theorem returns_findPath_some {node : MPTNode} :
    (Fueled.Returns (fun n => findPath n t k false) path ∧ path.node = some node) ↔
      ∃ above, path = ⟨some node, [], node :: above⟩ ∧ Arrives t k above (.ok (some node)) := by
  constructor
  · rintro ⟨⟨n, hn⟩, hnode⟩
    obtain ⟨above, result, harrives, harrived⟩ :=
      arrives_findPath (t := t) (k := k) (n := n) (fun h => nomatch hn.symm.trans h)
    obtain ⟨-, path', hok, hnone⟩ | ⟨e, -, -, herror⟩ | ⟨node', rfl, hok⟩ :=
      findPath_of_arrived harrived
    · obtain rfl : path = path' := ok.inj (hn.symm.trans hok)
      exact (nomatch hnode.symm.trans hnone)
    · exact (nomatch hn.symm.trans herror)
    · obtain rfl : path = ⟨some node', [], node' :: above⟩ := ok.inj (hn.symm.trans hok)
      cases hnode
      exact ⟨above, rfl, harrives⟩
  · rintro ⟨above, rfl, harrives⟩
    obtain ⟨n, harrived⟩ := harrives.walkPath
    obtain ⟨hresult | hresult, -⟩ | ⟨e, -, hresult, -⟩ | ⟨node', hresult, hok⟩ :=
      findPath_of_arrived harrived
    · cases hresult
    · cases hresult
    · cases hresult
    · cases hresult
      exact ⟨⟨n, hok⟩, rfl⟩

/-- Where the path of a key ends and nothing on it is malformed, `findPath` returns. -/
theorem returns_findPath (hends : Ends t k) (hreadable : Readable t k) :
    ∃ path, Fueled.Returns (fun n => findPath n t k false) path := by
  obtain ⟨above, result, harrives⟩ := hends
  obtain ⟨n, harrived⟩ := harrives.walkPath
  obtain ⟨-, path, hok, -⟩ | ⟨e, hmissing, rfl, -⟩ | ⟨node, -, hok⟩ := findPath_of_arrived harrived
  · exact ⟨path, n, hok⟩
  · exact absurd (hreadable e ⟨above, harrives⟩) hmissing
  · exact ⟨_, n, hok⟩

theorem ends_of_returns (h : Fueled.Returns (fun n => findPath n t k false) path) : Ends t k := by
  obtain ⟨n, hn⟩ := h
  obtain ⟨above, result, harrives, -⟩ :=
    arrives_findPath (t := t) (k := k) (n := n) (fun hout => nomatch hn.symm.trans hout)
  exact ⟨above, result, harrives⟩

/-! ## Missing roots -/

theorem walkPath_stack_ne_nil (n : Nat) (ref : Item) (progress : Nat)
    (h : stack ≠ []) : (walkPath db key n ref progress stack).stack ≠ [] := by
  induction n generalizing ref progress stack with
  | zero => exact h
  | succ n ih =>
    have hset : ∀ node, stackSet stack progress node ≠ [] := fun _ => cons_ne_nil _ _
    unfold walkPath
    split
    · exact h
    · dsimp only
      split
      · split
        · exact hset _
        · split
          · exact hset _
          · exact ih _ _ (hset _)
      · split
        · exact hset _
        · split
          · exact hset _
          · exact hset _
      · split
        · exact ih _ _ (hset _)
        · exact hset _

/-- The stack is empty where the root node is missing, and only there. -/
theorem findPath_stack {n : Nat} (h : findPath n t k false = .ok path) :
    path.stack = [] ↔ lookupNode t._db (.bytes t._root) = .error .missingNode := by
  cases n with
  | zero => cases h
  | succ n =>
    have hstack : path.stack =
        (walkPath t._db (bytesToNibbles k) (n + 1) (.bytes t._root) 0 []).stack.map Prod.snd := by
      unfold findPath at h
      dsimp only at h
      split at h
      · cases h
        rfl
      · cases h
        rfl
      · cases h
    constructor
    · intro hnil
      have hempty := List.map_eq_nil_iff.mp (hstack.symm.trans hnil)
      cases hnode : lookupNode t._db (.bytes t._root) with
      | ok node =>
        -- one more step from a stack that holds the root node
        have hmore : (walkPath t._db (bytesToNibbles k) (n + 1) (.bytes t._root) 0 []).stack ≠ [] := by
          have hset : stackSet [] 0 node ≠ [] := cons_ne_nil _ _
          simp only [walkPath, hnode]
          split
          · split
            · exact hset
            · split
              · exact hset
              · exact walkPath_stack_ne_nil _ _ _ hset
          · split
            · exact hset
            · split
              · exact hset
              · exact hset
          · split
            · exact walkPath_stack_ne_nil _ _ _ hset
            · exact hset
        exact absurd hempty hmore
      | error e =>
        have hresult : (walkPath t._db (bytesToNibbles k) (n + 1) (.bytes t._root) 0 []).result =
            .error e := by simp only [walkPath, hnode]
        by_cases hmissing : e = .missingNode
        · rw [hmissing]
        · have herror : findPath (n + 1) t k false = .error e := by
            cases e <;> first | exact absurd rfl hmissing | simp only [findPath, hresult]
          exact (nomatch h.symm.trans herror)
    · intro hnode
      rw [hstack]
      simp only [walkPath, hnode, map_nil]

end MPT
