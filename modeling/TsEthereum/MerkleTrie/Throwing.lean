-- SUMMARY: When put and del throw, in terms of the nodes on the path of the key and of the child that a deletion leaves.
import TsEthereum.MerkleTrie.Walks
import TsEthereum.MerkleTrie.Batch

/-!
# Throwing

Everything in `put` and `del` that throws looks up a node, or finds a stack that no
trie of its own making has. Saving a stack does not throw, where hashes have one
length.
-/

open List Function

open Rlp (Item)
open Nibbles

namespace MPT

/-- Where a branch has one child left, it can be looked up. -/
def LoneChildReadable (db : MapDB) (_branches : Nibble → Item) : Prop :=
  ∀ i child, MPTNode.getChildren _branches = [(i, child)] → ∃ node, lookupNode db child = .ok node

/-- What lets `_deleteNode` take `node` away below the nodes `above`. -/
def Removable (db : MapDB) (key : Nibbles) (node : MPTNode) : List MPTNode → Prop
  | [] => True
  | parentNode :: _ =>
    match node, parentNode with
    | .branch _branches _, _ => LoneChildReadable db _branches
    | node, .branch _branches _ =>
      ∀ front branchKey, key = front ++ branchKey :: node.key →
        LoneChildReadable db (Function.update _branches branchKey (.bytes []))
    | _, _ => False

/-- Nothing that a deletion of `key` looks up is malformed, and what it needs is there. -/
def DelSafe (t : MPT) (key : Bytes) : Prop :=
  Readable t key ∧
    ∀ above node, Arrives t key above (.ok (some node)) →
      Removable t._db (bytesToNibbles key) node above

variable (hash : Bytes → Bytes)

/-- So it is for a value that is stored: of the path of the key `appliedKey`, and, with pruning,
of the path that `get` takes. -/
def StoreSafe (t : MPT) (key appliedKey : Bytes) : Prop :=
  t._root = EMPTY_TRIE_ROOT hash ∨
    lookupNode t._db (.bytes t._root) ≠ .error .missingNode ∧ Readable t appliedKey ∧
      (t._opts.useNodePruning = true → Ends t appliedKey → Readable t (t.appliedKey hash key))

/-- The key that the trie is walked with. -/
def walkedKey (t : MPT) (key : Bytes) (skipKeyTransform : Bool) : Bytes :=
  if skipKeyTransform then key else t.appliedKey hash key

/-- An empty value is a deletion, and of the key hashed once more. -/
def PutSafe (t : MPT) (key : Bytes) (skipKeyTransform : Bool) : Option Bytes → Prop
  | none | some [] => DelSafe t (t.walkedKey hash key false)
  | some (_ :: _) => StoreSafe hash t key (t.walkedKey hash key skipKeyTransform)

/-- No operation of a batch throws where it is safe. -/
def OpSafe (t : MPT) (skipKeyTransform : Bool) : BatchDBOp → Prop
  | .put key value => PutSafe hash t key skipKeyTransform (some value)
  | .del key => DelSafe t (t.walkedKey hash key skipKeyTransform)

variable {hash} {t t' : MPT} {e : MPTError}

/-! ## Saving -/

theorem setRoot_returns (hlen : ∀ m, (hash m).length = 32) (t : MPT) (m : Bytes) :
    t.setRoot hash (hash m) = .ok { t with _root := hash m } := by
  simp [setRoot, EMPTY_TRIE_ROOT, hlen]

variable {stack : List MPTNode}

variable (hash) in
/-- The node on top of the stack is held by its hash. -/
theorem saveNodes_top (opts : MPTOpts) (hstack : stack ≠ []) (key : Nibbles)
    (lastRoot : Option Item) (opStack : List BatchDBOp) :
    ∃ m ops, saveNodes hash opts stack key lastRoot opStack = (some (.bytes (hash m)), ops) := by
  induction stack generalizing key lastRoot opStack with
  | nil => exact absurd rfl hstack
  | cons node stack ih =>
    cases stack with
    | nil =>
      let encoded := (linkNode node key lastRoot).1.serialize
      have htop : encoded.length ≥ 32 ∨ ([] : List MPTNode).isEmpty = true := .inr rfl
      refine ⟨encoded, opStack ++ [.put (hash encoded) encoded], ?_⟩
      simp only [saveNodes, formatNode, encoded, htop, if_true, Bool.false_eq_true, if_false]
    | cons next stack => exact ih (cons_ne_nil next stack) _ _ _

theorem saveStack_returns (hlen : ∀ m, (hash m).length = 32) (t : MPT) (key : Nibbles)
    (hstack : stack ≠ []) (opStack : List BatchDBOp) :
    ∃ t', t.saveStack hash key stack opStack = .ok t' := by
  obtain ⟨m, ops, hsave⟩ := saveNodes_top hash t._opts hstack key none opStack
  refine ⟨{ t with _root := hash m }.dbBatch ops, ?_⟩
  simp only [saveStack, hsave, setRoot_returns hlen, bind, Except.bind, pure, Except.pure]

theorem createInitialNode_returns (hlen : ∀ m, (hash m).length = 32) (t : MPT) (key value : Bytes) :
    ∃ t', t.createInitialNode hash key value = .ok t' := by
  simp only [createInitialNode, setRoot_returns hlen, bind, Except.bind]
  exact ⟨_, rfl⟩

/-! ## Updating -/

variable {k : Bytes}

/-- An update throws on an empty stack, and only there. -/
theorem updateNode_error (hlen : ∀ m, (hash m).length = 32) {value : Bytes} {keyRemainder : Nibbles} :
    
    t.updateNode hash k value keyRemainder stack = .error e ↔ stack = [] ∧ e = .stackUnderflow := by
  have hsaves : ∀ {key node stack ops}, t.saveStack hash key (node :: stack) ops ≠ .error e := by
    intro key node stack ops h
    obtain ⟨t', ht'⟩ := saveStack_returns hlen t key (cons_ne_nil node stack) ops
    exact (nomatch ht'.symm.trans h)
  cases stack with
  | nil =>
    simp only [updateNode, Except.error.injEq, true_and]
    exact eq_comm
  | cons lastNode stack =>
    refine iff_of_false (fun h => ?_) (fun h => nomatch h.1)
    unfold updateNode at h
    dsimp only at h
    split at h
    · exact hsaves h
    · split at h
      · split at h <;> exact hsaves h
      all_goals
        -- a split leaves at least the new branch on the stack
        unfold splitNode at h
        dsimp only at h
        split at h <;> exact hsaves h

/-! ## Deleting -/

variable {_branches : Nibble → Item}

/-- Collapsing a branch throws where its one child cannot be looked up. -/
theorem collapseBranch_error (hlen : ∀ m, (hash m).length = 32) {key : Nibbles} {_value : Item}
    {parentNode : Option MPTNode} {opStack : List BatchDBOp} :
    t.collapseBranch hash key _branches _value parentNode stack opStack = .error e ↔
      ∃ i child, MPTNode.getChildren _branches = [(i, child)] ∧ lookupNode t._db child = .error e := by
  unfold collapseBranch
  split
  · next i child hchildren =>
    cases hnode : lookupNode t._db child with
    | error e' =>
      simp only [bind, Except.bind, hchildren, Except.error.injEq, List.cons.injEq, Prod.mk.injEq,
        and_true]
      constructor
      · rintro rfl
        exact ⟨i, child, ⟨rfl, rfl⟩, hnode⟩
      · rintro ⟨_, _, ⟨rfl, rfl⟩, herror⟩
        exact Except.error.inj (hnode.symm.trans herror)
    | ok foundNode =>
      refine iff_of_false (fun h => ?_) ?_
      · have hstack : (processBranchMPTNode key i foundNode parentNode stack).2 ≠ [] := by
          unfold processBranchMPTNode
          split <;> exact cons_ne_nil _ _
        obtain ⟨t', ht'⟩ := saveStack_returns hlen t
          (processBranchMPTNode key i foundNode parentNode stack).1 hstack
          (if t._opts.useNodePruning then opStack ++ [.del (t.collapsedKey hash child)] else opStack)
        exact (nomatch ht'.symm.trans h)
      · rintro ⟨i', child', hchildren', herror⟩
        cases hchildren.symm.trans hchildren'
        exact (nomatch hnode.symm.trans herror)
  · next hmany =>
    refine iff_of_false (fun h => ?_) ?_
    · obtain ⟨t', ht'⟩ := saveStack_returns hlen t key
        (cons_ne_nil (.branch _branches _value) (parentNode.toList ++ stack)) opStack
      exact (nomatch ht'.symm.trans h)
    · rintro ⟨i, child, hchildren, -⟩
      exact hmany i child hchildren

theorem not_loneChildReadable {db : MapDB} : ¬LoneChildReadable db _branches ↔
      ∃ e i child, MPTNode.getChildren _branches = [(i, child)] ∧ lookupNode db child = .error e := by
  unfold LoneChildReadable
  push Not
  constructor
  · rintro ⟨i, child, hchildren, hnone⟩
    cases hnode : lookupNode db child with
    | ok node => exact absurd hnode (hnone node)
    | error e => exact ⟨e, i, child, hchildren, hnode⟩
  · rintro ⟨e, i, child, hchildren, herror⟩
    exact ⟨i, child, hchildren, fun node hnode => nomatch herror.symm.trans hnode⟩

variable {above : List MPTNode}

/-- A key that leads on from a branch spends a nibble there. -/
theorem leads_branch {db : MapDB} {root ref _value : Item} {key rest : Nibbles}
    (h : Leads db root key (.branch _branches _value :: above) ref rest) :
    ∃ front branchKey, key = front ++ branchKey :: rest := by
  -- below extensions of empty paths the branch is still the nearest node
  generalize hnodes : MPTNode.branch _branches _value :: above = nodes at h
  induction h generalizing above with
  | root => cases hnodes
  | @branch _ _ _ _ _ i rest hleads _ _ _ =>
    have hkey : ∀ {nodes ref rest}, Leads db root key nodes ref rest → rest <:+ key := by
      intro nodes ref rest h
      induction h with
      | root => exact suffix_rfl
      | branch _ _ _ ih => exact (suffix_cons _ _).trans ih
      | extension _ _ ih => exact (suffix_append _ _).trans ih
    obtain ⟨front, hfront⟩ := hkey hleads
    exact ⟨front, i, hfront.symm⟩
  | @extension _ _ _ _nibbles _ _ _ ih =>
    cases _nibbles with
    | nil => exact ih hnodes
    | cons x _nibbles => cases hnodes

theorem arrives_some {node : MPTNode} (h : Arrives t k above (.ok (some node))) :
    ∃ ref, (∃ _branches _value, node = .branch _branches _value ∧
        Leads t._db (.bytes t._root) (bytesToNibbles k) above ref []) ∨
      ∃ _nibbles _value, node = .leaf _nibbles _value ∧
        Leads t._db (.bytes t._root) (bytesToNibbles k) above ref _nibbles := by
  obtain ⟨ref, rest, hleads, hstop⟩ := h
  cases hstop with
  | branch hrest _ => exact ⟨ref, .inl ⟨_, _, rfl, hrest ▸ hleads⟩⟩
  | leaf _ => exact ⟨ref, .inr ⟨_, _, rfl, hleads⟩⟩

theorem collapseBranch_throws (hlen : ∀ m, (hash m).length = 32) (t : MPT) (key : Nibbles)
    (_branches : Nibble → Item) (_value : Item) (parentNode : Option MPTNode)
    (stack : List MPTNode) (opStack : List BatchDBOp) : (∃ e, e ≠ .outOfFuel ∧
        t.collapseBranch hash key _branches _value parentNode stack opStack = .error e) ↔
      ¬LoneChildReadable t._db _branches := by
  rw [not_loneChildReadable]
  constructor
  · rintro ⟨e, -, h⟩
    exact ⟨e, (collapseBranch_error hlen).mp h⟩
  · rintro ⟨e, i, child, hchildren, herror⟩
    refine ⟨e, ?_, (collapseBranch_error hlen).mpr ⟨i, child, hchildren, herror⟩⟩
    rintro rfl
    exact lookupNode_ne_outOfFuel _ _ herror

/-- A node that was found is taken away without an error where it is removable, and only there. -/
theorem deleteNode_throws (hlen : ∀ m, (hash m).length = 32) {node : MPTNode}
    (h : Arrives t k above (.ok (some node))) :
    (∃ e, e ≠ .outOfFuel ∧ t.deleteNode hash k (node :: above) = .error e) ↔
      ¬Removable t._db (bytesToNibbles k) node above := by
  obtain ⟨ref, ⟨_branches, _value, rfl, hleads⟩ | ⟨_nibbles, _value, rfl, hleads⟩⟩ := arrives_some h
  all_goals cases above with
  | nil =>
    have hroot := setRoot_returns hlen t RLP_EMPTY_STRING
    refine iff_of_false ?_ (not_not_intro trivial)
    rintro ⟨e, -, herror⟩
    cases hroot.symm.trans herror
  | cons parentNode above => ?_
  · exact collapseBranch_throws hlen t _ _branches _value (some parentNode) above []
  · cases parentNode with
    | branch _branches _value' =>
      obtain ⟨front, branchKey, hkey⟩ := leads_branch hleads
      have hsplice : spliceEnd (bytesToNibbles k) (MPTNode.leaf _nibbles _value).keyLength =
          front ++ [branchKey] := by
        rw [hkey, append_cons]
        exact Trie.spliceEnd_append _ _nibbles
      have hremovable : Removable t._db (bytesToNibbles k) (.leaf _nibbles _value)
          (.branch _branches _value' :: above) ↔
          LoneChildReadable t._db (update _branches branchKey (.bytes [])) := by
        constructor
        · intro hall
          exact hall front branchKey hkey
        · intro hone front' branchKey' hkey'
          -- the nibble before the path of the leaf is the same
          have hsame : branchKey = branchKey' := by
            have := append_inj_right' (hkey.symm.trans hkey') rfl
            exact (List.cons.inj this).1
          exact hsame ▸ hone
      rw [hremovable]
      have hcollapse := collapseBranch_throws hlen t (front ++ [branchKey]).dropLast
        (update _branches branchKey (.bytes [])) _value' above.head? above.tail
        (formatNode hash t._opts (.leaf _nibbles _value) false [] true).2
      simpa only [deleteNode, hsplice, getLast?_concat] using hcollapse
    | extension _ _ =>
      refine iff_of_true ⟨.expectedBranchNode, by rintro ⟨⟩, rfl⟩ ?_
      exact fun hfalse => hfalse
    | leaf _ _ =>
      refine iff_of_true ⟨.expectedBranchNode, by rintro ⟨⟩, rfl⟩ ?_
      exact fun hfalse => hfalse

/-! ## Reading -/

section
open Fueled

theorem get_steady (t : MPT) (key : Bytes) : Steady .outOfFuel fun n => t.get hash n key false :=
  (findPath_steady t (t.appliedKey hash key)).andThen fun _ => .const _

variable {key : Bytes}

theorem throws_get : Throws .outOfFuel (fun n => t.get hash n key false) e ↔
      e ≠ .missingNode ∧ Breaks t (t.appliedKey hash key) e := by
  refine (throws_then (findPath_steady t (t.appliedKey hash key))).trans ?_
  rw [throws_findPath, or_iff_left]
  rintro ⟨path, -, -, hpath⟩
  split at hpath <;> cases hpath

theorem obsolete_steady (t : MPT) (key value : Bytes) (stack : List MPTNode) :
    Steady .outOfFuel fun n => t.obsolete hash n key value stack := by
  unfold obsolete
  apply Steady.ite
  · exact (get_steady t key).andThen fun _ => .const _
  · exact .const _

variable {value : Bytes}

/-- Deciding what an update makes obsolete throws only with pruning, as the lookup in it does. -/
theorem throws_obsolete {stack : List MPTNode} :
    Throws .outOfFuel (fun n => t.obsolete hash n key value stack) e ↔
      t._opts.useNodePruning = true ∧ e ≠ .missingNode ∧ Breaks t (t.appliedKey hash key) e := by
  by_cases hprune : t._opts.useNodePruning = true
  · rw [and_iff_right hprune, ← throws_get]
    unfold obsolete
    simp only [hprune, if_true]
    refine (throws_then (get_steady t key)).trans (or_iff_left ?_)
    rintro ⟨val, -, -, hval⟩
    split at hval <;> cases hval
  · refine iff_of_false ?_ (fun h => hprune h.1)
    rintro ⟨-, n, hn⟩
    simp only [obsolete, hprune] at hn
    cases hn

/-! ## Put and del -/

theorem del_steady (t : MPT) (key : Bytes) (skip : Bool) :
    Steady .outOfFuel fun n => t.del hash n key skip :=
  (findPath_steady t _).andThen fun _ => .const _

variable {skip : Bool}

/-- `del` throws where something it looks up is malformed, or a needed child is not there. -/
theorem throws_del (hlen : ∀ m, (hash m).length = 32) :
    (∃ e, Throws .outOfFuel (fun n => t.del hash n key skip) e) ↔
      ¬DelSafe t (t.walkedKey hash key skip) := by
  let k := t.walkedKey hash key skip
  have hsplit : ∀ e, Throws .outOfFuel (fun n => t.del hash n key skip) e ↔
      (e ≠ .missingNode ∧ Breaks t k e) ∨ ∃ path, Returns (fun n => findPath n t k false) path ∧
        ∃ node, path.node = some node ∧ e ≠ .outOfFuel ∧
          t.deleteNode hash k path.stack = .error e := by
    intro e
    refine (throws_then (findPath_steady t k)).trans ?_
    refine or_congr throws_findPath (exists_congr fun path => and_congr_right fun _ => ?_)
    cases hnode : path.node with
    | none =>
      refine iff_of_false (fun h => nomatch h.2) ?_
      rintro ⟨_, h, -⟩
      cases h
    | some node =>
      simp only [Option.some.injEq, exists_eq_left']
      refine and_congr_right fun _ => ?_
      change (t.deleteNode hash k path.stack >>= fun t' =>
        if t._opts.useNodePruning then pure (t'.dbBatch (pruneOps hash path.stack)) else pure t') =
          .error e ↔ _
      cases hdelete : t.deleteNode hash k path.stack with
      | error e' => exact Iff.rfl
      | ok t' =>
        refine iff_of_false (fun h => ?_) nofun
        simp only [bind, Except.bind] at h
        split at h <;> cases h
  constructor
  · rintro ⟨e, he⟩ ⟨hreadable, hremovable⟩
    obtain ⟨hmissing, hbreaks⟩ | ⟨path, hpath, node, hnode, hout, hdelete⟩ := (hsplit e).mp he
    · exact hmissing (hreadable e hbreaks)
    · obtain ⟨above, rfl, harrives⟩ := returns_findPath_some.mp ⟨hpath, hnode⟩
      exact (deleteNode_throws hlen harrives).mp ⟨e, hout, hdelete⟩ (hremovable above node harrives)
  · intro hunsafe
    by_cases hreadable : Readable t k
    · have hfound : ∃ above node, Arrives t k above (.ok (some node)) ∧
          ¬Removable t._db (bytesToNibbles k) node above := by
        by_contra hnone
        push Not at hnone
        exact hunsafe ⟨hreadable, hnone⟩
      obtain ⟨above, node, harrives, hnot⟩ := hfound
      obtain ⟨e, hout, hdelete⟩ := (deleteNode_throws hlen harrives).mpr hnot
      obtain ⟨hpath, hnode⟩ := returns_findPath_some.mpr ⟨above, rfl, harrives⟩
      exact ⟨e, (hsplit e).mpr (.inr ⟨_, hpath, node, hnode, hout, hdelete⟩)⟩
    · unfold Readable at hreadable
      push Not at hreadable
      obtain ⟨e, hbreaks, hmissing⟩ := hreadable
      exact ⟨e, (hsplit e).mpr (.inl ⟨hmissing, hbreaks⟩)⟩

/-- What `put` does with a value that is not empty. -/
def store (hash : Bytes → Bytes) (fuel : Nat) (t : MPT) (key value appliedKey : Bytes) :
    Except MPTError MPT := do
  let path ← findPath fuel t appliedKey false
  let ops ← t.obsolete hash fuel key value path.stack
  let t' ← t.updateNode hash appliedKey value path.remaining path.stack
  return t'.dbBatch ops

variable (hash) in
theorem put_eq (fuel : Nat) (t : MPT) (key : Bytes) (hvalue : value ≠ []) (skip : Bool) :
    t.put hash fuel key (some value) skip =
      if t._root = EMPTY_TRIE_ROOT hash then
        t.createInitialNode hash (t.walkedKey hash key skip) value
      else t.store hash fuel key value (t.walkedKey hash key skip) := by
  cases value with
  | nil => exact absurd rfl hvalue
  | cons x value => rfl

theorem store_steady (t : MPT) (key value k : Bytes) :
    Steady .outOfFuel fun n => t.store hash n key value k :=
  (findPath_steady t k).andThen fun path => (obsolete_steady t key value path.stack).andThen
    fun _ => .const _

theorem throws_store (hlen : ∀ m, (hash m).length = 32) {k : Bytes} :
    Throws .outOfFuel (fun n => t.store hash n key value k) e ↔
      (e ≠ .missingNode ∧ Breaks t k e) ∨ ∃ path, Returns (fun n => findPath n t k false) path ∧
        ((t._opts.useNodePruning = true ∧ e ≠ .missingNode ∧ Breaks t (t.appliedKey hash key) e) ∨
          ∃ ops, Returns (fun n => t.obsolete hash n key value path.stack) ops ∧
            path.stack = [] ∧ e = .stackUnderflow) := by
  refine (throws_bind (findPath_steady t k) ?_).trans ?_
  · exact fun path => (obsolete_steady t key value path.stack).andThen fun _ => .const _
  refine or_congr throws_findPath (exists_congr fun path => and_congr_right fun _ => ?_)
  refine (throws_then (obsolete_steady t key value path.stack)).trans ?_
  refine or_congr throws_obsolete (exists_congr fun ops => and_congr_right fun _ => ?_)
  have hupdate : (t.updateNode hash k value path.remaining path.stack >>=
      fun t' => pure (t'.dbBatch ops)) = .error e ↔
        t.updateNode hash k value path.remaining path.stack = .error e := by
    cases t.updateNode hash k value path.remaining path.stack with
    | error e' => exact Iff.rfl
    | ok t' => exact iff_of_false nofun nofun
  rw [hupdate, updateNode_error hlen]
  refine and_iff_right_of_imp ?_
  rintro ⟨-, rfl⟩
  nofun

/-- Where the root node is missing, `get` finds nothing and does not throw. -/
theorem returns_obsolete_of_missing {stack : List MPTNode}
    (hmissing : lookupNode t._db (.bytes t._root) = .error .missingNode) :
    ∃ ops, Returns (fun n => t.obsolete hash n key value stack) ops := by
  have hget : t.get hash 1 key false = .ok none := by
    simp only [get, findPath, walkPath, hmissing]
    rfl
  have hval : (none : Option Item) ≠ some (.bytes value) := by rintro ⟨⟩
  by_cases hprune : t._opts.useNodePruning = true
  · refine ⟨pruneOps hash stack, 1, ?_⟩
    simp only [obsolete, hprune, hget, if_true, bind, Except.bind, if_pos hval]
    rfl
  · refine ⟨[], 1, ?_⟩
    simp only [obsolete, hprune]
    rfl

/-- A value is stored without an error where that is safe, and only there. -/
theorem throws_put_some (hlen : ∀ m, (hash m).length = 32) (hvalue : value ≠ []) :
    (∃ e, Throws .outOfFuel (fun n => t.put hash n key (some value) skip) e) ↔
      ¬StoreSafe hash t key (t.walkedKey hash key skip) := by
  let k := t.walkedKey hash key skip
  have hput : ∀ n, t.put hash n key (some value) skip = _ := fun n => put_eq hash n t key hvalue skip
  simp only [hput]
  split
  · next hempty =>
    obtain ⟨t', ht'⟩ := createInitialNode_returns hlen t k value
    refine iff_of_false ?_ (not_not_intro (.inl hempty))
    rintro ⟨e, -, n, herror⟩
    exact (nomatch ht'.symm.trans herror)
  · next hempty =>
    simp only [throws_store hlen]
    constructor
    · rintro ⟨e, ⟨hmissing, hbreaks⟩ | ⟨path, hpath, hrest⟩⟩ hsafe
      · exact hmissing ((hsafe.resolve_left hempty).2.1 e hbreaks)
      · obtain ⟨hroot, -, hprune⟩ := hsafe.resolve_left hempty
        rcases hrest with ⟨hpruning, hmissing, hbreaks⟩ | ⟨ops, -, hstack, -⟩
        · exact hmissing (hprune hpruning (ends_of_returns hpath) e hbreaks)
        · obtain ⟨n, hn⟩ := hpath
          exact hroot ((findPath_stack hn).mp hstack)
    · intro hunsafe
      by_contra hnone
      push Not at hnone
      have hreadable : Readable t k := by
        intro e hbreaks
        by_contra hmissing
        exact (hnone e).1 hmissing hbreaks
      refine hunsafe (.inr ⟨?_, hreadable, ?_⟩)
      · intro hmissing
        -- the path ends at the root, with an empty stack
        have hends : Ends t k := ⟨[], .error .missingNode, _, _, .root, .unreadable hmissing⟩
        obtain ⟨path, hpath⟩ := returns_findPath hends hreadable
        obtain ⟨ops, hops⟩ := returns_obsolete_of_missing hmissing
        have hpath' := hpath
        obtain ⟨n, hn⟩ := hpath'
        exact ((hnone .stackUnderflow).2 path hpath).2 ops hops ((findPath_stack hn).mpr hmissing) rfl
      · intro hpruning hends e hbreaks
        by_contra hmissing
        obtain ⟨path, hpath⟩ := returns_findPath hends hreadable
        exact ((hnone e).2 path hpath).1 hpruning hmissing hbreaks

theorem throws_put (hlen : ∀ m, (hash m).length = 32) {value : Option Bytes} :
    (∃ e, Throws .outOfFuel (fun n => t.put hash n key value skip) e) ↔
      ¬PutSafe hash t key skip value := by
  match value with
  | none | some [] => exact throws_del hlen
  | some (x :: value) => exact throws_put_some hlen (cons_ne_nil x value)

theorem put_steady (t : MPT) (key : Bytes) (value : Option Bytes) (skip : Bool) :
    Steady .outOfFuel fun n => t.put hash n key value skip := by
  match value with
  | none | some [] => exact del_steady t key false
  | some (x :: value) =>
    have hput := fun n => put_eq hash n t key (cons_ne_nil x value) skip
    simp only [hput]
    exact Steady.ite (.const _) (store_steady t key (x :: value) _)

theorem throws_batchOp (hlen : ∀ m, (hash m).length = 32) {op : BatchDBOp} :
    (∃ e, Throws .outOfFuel (fun n => t.batchOp hash n skip op) e) ↔ ¬OpSafe hash t skip op := by
  cases op with
  | put key value => exact throws_put hlen
  | del key => exact throws_del hlen

theorem batchOp_steady (t : MPT) (op : BatchDBOp) (skip : Bool) :
    Steady .outOfFuel fun n => t.batchOp hash n skip op := by
  cases op with
  | put key value => exact put_steady t key (some value) skip
  | del key => exact del_steady t key skip

end

end MPT
