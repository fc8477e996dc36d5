-- SUMMARY: Runs of put and del from the empty trie: the finite map they mean, the tree they stand for, and reading any key.
import TsEthereum.MerkleTrie.Encodings

/-!
# Runs of a trie

A run makes operations one after the other, starting from the empty trie. Its
meaning is a finite map from keys to values; the tree between the two is built by
`Trie.insert` and `Trie.remove`.
-/

open List Function

open Rlp (Item)
open Nibbles

namespace MPT

/-- `put` of an empty value means `del`. -/
inductive Op where
  | put (key value : Uint8Array)
  | del (key : Uint8Array)

namespace Op

def key : Op → Uint8Array
  | .put key _ => key
  | .del key => key

/-- What the operation leaves under its key. -/
def value : Op → Option Bytes
  | .put _ value => if value.val = [] then none else some value.val
  | .del _ => none

theorem value_bounds {op : Op} {value : Bytes} (h : op.value = some value) :
    value.length < 2 ^ 51 ∧ value ≠ [] := by
  cases op with
  | del key => cases h
  | put key w =>
    simp only [Op.value] at h
    split at h
    · cases h
    · rename_i hw
      rw [← Option.some.inj h]
      exact ⟨w.property, hw⟩

end Op

variable (hash : Bytes → Bytes)

/-- Steps enough for a walk to the key. -/
def walkFuel (t : MPT) (key : Bytes) : Nat := 2 * (t.appliedKey hash key).length + 1

def apply (t : MPT) : Op → Except MPTError MPT
  | .put key value => t.put hash (t.walkFuel hash key) key (some value) false
  | .del key => t.del hash (t.walkFuel hash key) key false

def runFrom (t : MPT) (ops : List Op) : Except MPTError MPT := ops.foldlM (apply hash) t

/-- A run from the empty trie. -/
def run (opts : MPTOpts) (ops : List Op) : Except MPTError MPT := runFrom hash (new hash opts) ops

/-- `get(key)`. -/
def read (t : MPT) (key : Bytes) : Except MPTError (Option Item) :=
  t.get hash (t.walkFuel hash key) key false

/-- The finite map that the operations mean. -/
def entries (ops : List Op) : Bytes → Option Bytes :=
  ops.foldl (fun m op => Function.update m op.key op.value) (fun _ => none)

/-- The encodings that occur in a run. -/
def occurring (opts : MPTOpts) (ops : List Op) : Set Bytes :=
  {v | ∃ before t, before <+: ops ∧ run hash opts before = .ok t ∧ v ∈ nodeEncodings t.journal}

/-- The nibbles under which a key is stored. -/
def keyNibbles (opts : MPTOpts) (key : Bytes) : Nibbles :=
  bytesToNibbles (if opts.useKeyHashing then hash key else key)

/-- The tree after one operation. -/
def treeStep (opts : MPTOpts) (t : Trie) (op : Op) : Trie :=
  match op.value with
  | none => t.remove (keyNibbles hash opts op.key)
  | some value => t.insert (keyNibbles hash opts op.key) value

/-- The tree that a run builds. -/
def treeOf (opts : MPTOpts) (ops : List Op) : Trie := ops.foldl (treeStep hash opts) .empty

/-- What holds of every step of a run, of the operations before it and its own. -/
def EachStep (ops : List Op) (p : List Op → Op → Prop) : Prop :=
  ∀ before op, before ++ [op] <+: ops → p before op

variable {ops : List Op} {p : List Op → Op → Prop}

theorem eachStep_iff : EachStep ops p ↔ ∀ i : Fin ops.length, p (ops.take i) (ops.get i) := by
  constructor
  · intro h i
    have htake : ops.take i ++ [ops.get i] = ops.take (i + 1) := take_concat_get' ops i i.isLt
    exact h _ _ (htake ▸ take_prefix _ ops)
  · rintro h before op ⟨rest, rfl⟩
    have hi : before.length < (before ++ [op] ++ rest).length := by simp
    have hstep := h ⟨before.length, hi⟩
    simpa using hstep

instance {ops : List Op} {p : List Op → Op → Prop} [∀ before op, Decidable (p before op)] :
    Decidable (EachStep ops p) :=
  decidable_of_iff _ eachStep_iff.symm

/-- Every deletion of a run finds no value in its way. -/
def RemovesCleanly (opts : MPTOpts) (ops : List Op) : Prop :=
  EachStep ops (fun before op => op.value = none →
    Trie.RemovesCleanly (treeOf hash opts before) (keyNibbles hash opts op.key))

instance (opts : MPTOpts) (ops : List Op) : Decidable (RemovesCleanly hash opts ops) :=
  inferInstanceAs (Decidable (EachStep _ _))

variable {hash}

/-! ## Steps and runs -/

theorem EachStep.before {before : List Op} (h : EachStep ops p) (hbefore : before <+: ops) :
    EachStep before p :=
  fun b op hb => h b op (hb.trans hbefore)

theorem EachStep.last {op : Op} (h : EachStep (ops ++ [op]) p) :
    p ops op := h ops op (prefix_refl _)

theorem run_concat (opts : MPTOpts) (ops : List Op) (op : Op) :
    run hash opts (ops ++ [op]) = (run hash opts ops).bind (fun t => t.apply hash op) := by
  simp only [run, runFrom, foldlM_append, foldlM_cons, foldlM_nil, bind_pure]
  rfl

theorem treeOf_concat (opts : MPTOpts) (ops : List Op) (op : Op) :
    treeOf hash opts (ops ++ [op]) = treeStep hash opts (treeOf hash opts ops) op := by
  simp only [treeOf, foldl_append, foldl_cons, foldl_nil]

theorem entries_concat (ops : List Op) (op : Op) :
    entries (ops ++ [op]) = Function.update (entries ops) op.key op.value := by
  simp only [entries, foldl_append, foldl_cons, foldl_nil]

variable {opts : MPTOpts}

theorem occurring_mono {ops' : List Op} (h : ops <+: ops') :
    occurring hash opts ops ⊆ occurring hash opts ops' := by
  rintro v ⟨before, t, hbefore, hrun, hv⟩
  exact ⟨before, t, hbefore.trans h, hrun, hv⟩

theorem good_new (opts : MPTOpts) :
    Trie.Good hash (new hash opts) .empty where
  holds := ⟨rfl, nofun, fun x hx hnode _ => by
    rw [PatriciaTree.sub_empty_iff.mp hx] at hnode
    cases hnode⟩
  tidy := Trie.tidy_empty
  journaled := ⟨fun k v h => (by simp [new] at h), fun k v h => absurd h not_mem_nil⟩
  noCollision := by
    rintro v (rfl | ⟨k, x, raw, hput, -⟩) w (rfl | ⟨k', x', raw', hput', -⟩) -
    · rfl
    · exact absurd hput' not_mem_nil
    · exact absurd hput not_mem_nil
    · exact absurd hput not_mem_nil

variable {s : MPT} {t : Trie}

section

variable (hlen : ∀ m, (hash m).length = 32)
include hlen

/-- The trie after one operation on a good one. -/
theorem apply_spec (h : Trie.Good hash s t)
    (hopts : s._opts = opts) (op : Op) :
    s.apply hash op = .ok (Trie.saved hash s (treeStep hash opts t op)
      (match op.value with
        | none => Trie.delOpsOf hash s t (keyNibbles hash opts op.key)
        | some value => Trie.putOpsOf hash opts t (keyNibbles hash opts op.key) value)) := by
  subst hopts
  have hfuel (key : Bytes) : 2 * (s.appliedKey hash key).length < s.walkFuel hash key :=
    Nat.lt_succ_self _
  cases op with
  | del key => exact h.del_spec hlen (hfuel key)
  | put key value =>
    by_cases hvalue : value.val = []
    · have hdel := h.del_spec hlen (hfuel key)
      simp only [apply, put, treeStep, Op.value, hvalue, if_true]
      exact hdel
    · have hput := h.put_spec hlen (hfuel key) hvalue
      simp only [apply, treeStep, Op.value, hvalue, if_false]
      exact hput

/-- `get` on a good trie answers what its tree holds. -/
theorem read_spec (h : Trie.Good hash s t) (key : Bytes) :
    s.read hash key = .ok ((PatriciaTree.lookup t (keyNibbles hash s._opts key)).map Item.bytes) := by
  have hfuel : 2 * (s.appliedKey hash key).length < s.walkFuel hash key := Nat.lt_succ_self _
  exact h.get_spec hlen hfuel

theorem length_keyNibbles (opts : MPTOpts) (key : Uint8Array) :
    (keyNibbles hash opts key).length < 2 ^ 52 := by
  have hkey := key.property
  unfold keyNibbles
  rw [length_bytesToNibbles]
  split
  · rw [hlen]
    omega
  · omega

end

variable {key : Bytes}

section

variable (hlen : ∀ m, (hash m).length = 32)
include hlen

theorem keyNibbles_ne_nil (opts : MPTOpts) (hkey : key ≠ []) : keyNibbles hash opts key ≠ [] := by
  intro hnil
  have hzero := congrArg List.length hnil
  unfold keyNibbles at hzero
  rw [length_bytesToNibbles, length_nil] at hzero
  split at hzero
  · rw [hlen] at hzero
    omega
  · have hpos := List.length_pos_iff.mpr hkey
    omega

/-- One operation keeps a trie without pruning the trie of its tree. -/
theorem good_step {s' : MPT} (h : Trie.Good hash s t)
    (hopts : s._opts = opts) (hprune : opts.useNodePruning = false) {op : Op}
    (hkey : keyNibbles hash opts op.key = [] → t.isBranch = false)
    (hclean : op.value = none → Trie.RemovesCleanly t (keyNibbles hash opts op.key))
    (hrun : s.apply hash op = .ok s') (hinj : Set.InjOn hash (nodeEncodings s'.journal)) :
    Trie.Good hash s' (treeStep hash opts t op) ∧ s'._opts = opts := by
  have hspec := apply_spec hlen h hopts op
  rw [hrun] at hspec
  obtain rfl := Except.ok.inj hspec
  refine ⟨?_, hopts⟩
  cases hvalue : op.value with
  | none =>
    simp only [hvalue, treeStep] at hinj ⊢
    subst hopts
    exact h.saved (h.tidy.remove hkey (hclean hvalue)) (Trie.storesNode_delOpsOf hprune _ _)
      (fun x hx hnode hlong => Trie.remove_stored s h.tidy.shape hx hnode hlong) hinj
  | some value =>
    simp only [hvalue, treeStep] at hinj ⊢
    obtain ⟨hlong, hne⟩ := op.value_bounds hvalue
    refine h.saved (h.tidy.insert (length_keyNibbles hlen opts op.key) hlong hne)
      (Trie.storesNode_putOpsOf hprune _ _ _) (fun x hx hnode hlong => ?_) hinj
    exact (Trie.insert_stored opts h.tidy.shape hx hnode hlong).imp_right
      (fun hold => ⟨hold.1, .inl hold.2⟩)

/-- Without pruning a run builds the trie of its tree. -/
theorem run_good (hprune : opts.useNodePruning = false) (hkeys : EachStep ops (fun before op =>
      keyNibbles hash opts op.key = [] → (treeOf hash opts before).isBranch = false))
    (hclean : RemovesCleanly hash opts ops) (hinj : Set.InjOn hash (occurring hash opts ops)) :
    ∃ s, run hash opts ops = .ok s ∧ Trie.Good hash s (treeOf hash opts ops) ∧ s._opts = opts := by
  induction ops using List.reverseRecOn with
  | nil => exact ⟨_, rfl, good_new opts, rfl⟩
  | append_singleton ops op ih =>
    have hbefore : ops <+: ops ++ [op] := prefix_append ops [op]
    obtain ⟨s, hrun, hgood, hopts⟩ := ih (EachStep.before hkeys hbefore)
      (EachStep.before hclean hbefore) (hinj.mono (occurring_mono hbefore))
    obtain ⟨s', happly⟩ : ∃ s', s.apply hash op = .ok s' := ⟨_, apply_spec hlen hgood hopts op⟩
    have hrun' : run hash opts (ops ++ [op]) = .ok s' := by
      rw [run_concat, hrun]
      exact happly
    refine ⟨s', hrun', ?_⟩
    rw [treeOf_concat]
    refine good_step hlen hgood hopts hprune hkeys.last hclean.last happly (hinj.mono ?_)
    exact fun v hv => ⟨ops ++ [op], s', prefix_refl _, hrun', hv⟩

end

/-! ## What the tree holds -/

theorem shape_treeOf (opts : MPTOpts) (ops : List Op) :
    treeOf hash opts ops = .empty ∨ PatriciaTree.WF (treeOf hash opts ops) := by
  induction ops using List.reverseRecOn with
  | nil => exact .inl rfl
  | append_singleton ops op ih =>
    rw [treeOf_concat]
    unfold treeStep
    split
    · exact Trie.remove_shape ih _
    · exact .inr (Trie.wf_insert ih _ _)

/-- The tree holds the finite map, for keys that no other key is taken for. -/
theorem lookup_treeOf (hkeys : EachStep ops (fun before op =>
      keyNibbles hash opts op.key = [] → (treeOf hash opts before).isBranch = false))
    (hclean : RemovesCleanly hash opts ops)
    (hkey : ∀ op ∈ ops, keyNibbles hash opts op.key = keyNibbles hash opts key → op.key.val = key) :
    PatriciaTree.lookup (treeOf hash opts ops) (keyNibbles hash opts key) = entries ops key := by
  induction ops using List.reverseRecOn with
  | nil => simp [treeOf, entries]
  | append_singleton ops op ih =>
    have hbefore : ops <+: ops ++ [op] := prefix_append ops [op]
    have hrest := ih (EachStep.before hkeys hbefore) (EachStep.before hclean hbefore)
      (fun op' hop' => hkey op' (mem_append.mpr (.inl hop')))
    have hsame : keyNibbles hash opts key = keyNibbles hash opts op.key ↔ key = op.key.val := by
      constructor
      · intro h
        exact (hkey op (mem_append.mpr (.inr (mem_singleton_self op))) h.symm).symm
      · rintro rfl
        rfl
    rw [treeOf_concat, entries_concat]
    unfold treeStep
    cases hvalue : op.value with
    | none =>
      simp only []
      rw [Trie.lookup_remove (shape_treeOf opts ops) hkeys.last (hclean.last hvalue), hrest,
        update_apply]
      simp only [hsame]
    | some value =>
      simp only []
      rw [Trie.lookup_insert (shape_treeOf opts ops), hrest, update_apply]
      simp only [hsame]

theorem keyNibbles_inj
    (h : opts.useKeyHashing = true → Set.InjOn hash (insert key {k | ∃ op ∈ ops, op.key.val = k})) :
    ∀ op ∈ ops, keyNibbles hash opts op.key = keyNibbles hash opts key → op.key.val = key := by
  intro op hop hsame
  have happlied := bytesToNibbles_injective hsame
  split at happlied
  · rename_i hhash
    exact h hhash (Set.mem_insert_of_mem _ ⟨op, hop, rfl⟩) (Set.mem_insert _ _) happlied
  · exact happlied

end MPT

/-! ## Checking for collisions -/

mutual

/-- The encodings of the lists in an item. -/
def Rlp.Item.encodedLists : Item → List Bytes
  | .bytes _ => []
  | .list l => Rlp.encode (.list l) :: Rlp.Item.encodedListsAll l
termination_by structural x => x

def Rlp.Item.encodedListsAll : List Item → List Bytes
  | [] => []
  | x :: l => x.encodedLists ++ Rlp.Item.encodedListsAll l
termination_by structural l => l

end

theorem Rlp.Item.mem_encodedListsAll {x : Item} {l : List Item} {v : Bytes} (hx : x ∈ l)
    (hv : v ∈ x.encodedLists) : v ∈ Rlp.Item.encodedListsAll l := by
  induction l with
  | nil => exact absurd hx not_mem_nil
  | cons y l ih =>
    simp only [Rlp.Item.encodedListsAll, mem_append]
    rcases mem_cons.mp hx with rfl | hx
    · exact .inl hv
    · exact .inr (ih hx)

theorem Rlp.Item.Within.mem_encodedLists {raw : List Item} {x : Item}
    (h : Within (.list raw) x) : Rlp.encode (.list raw) ∈ x.encodedLists := by
  induction h with
  | refl =>
    simp only [Rlp.Item.encodedLists]
    exact mem_cons_self
  | item hmem _ ih =>
    simp only [Rlp.Item.encodedLists]
    exact mem_cons_of_mem _ (Rlp.Item.mem_encodedListsAll hmem ih)

/-- The node encodings of an operation. -/
def BatchDBOp.encodings : BatchDBOp → List Bytes
  | .del _ => []
  | .put _ value =>
    match Rlp.decode value with
    | .ok x => x.encodedLists
    | .error _ => []

/-- The value of the operation is no longer than an array can be. -/
def BatchDBOp.isShort : BatchDBOp → Bool
  | .del _ => true
  | .put _ value => value.length < 2 ^ 53

def listEncodings (ops : List BatchDBOp) : List Bytes :=
  RLP_EMPTY_STRING :: ops.flatMap BatchDBOp.encodings

theorem mem_listEncodings {ops : List BatchDBOp} (hshort : ∀ op ∈ ops, op.isShort = true) {v : Bytes}
    (hv : v ∈ nodeEncodings ops) : v ∈ listEncodings ops := by
  rcases hv with rfl | ⟨k, x, raw, hput, hwithin, rfl⟩
  · exact mem_cons_self
  · refine mem_cons_of_mem _ (mem_flatMap.mpr ⟨_, hput, ?_⟩)
    have hlen : (Rlp.encode x).length < 2 ^ 53 := of_decide_eq_true (hshort _ hput)
    simp only [BatchDBOp.encodings, Rlp.decode_encode hlen]
    exact hwithin.mem_encodedLists

namespace MPT

/-- The journals of a run, as far as it gets. -/
def journals (hash : Bytes → Bytes) (opts : MPTOpts) (ops : List Op) : List (List BatchDBOp) :=
  ops.inits.filterMap (fun before =>
    match run hash opts before with
    | .ok t => some t.journal
    | .error _ => none)

/-- No two encodings that occur in the run have the same hash. -/
def collisionFree (hash : Bytes → Bytes) (opts : MPTOpts) (ops : List Op) : Bool :=
  let all := ((journals hash opts ops).flatMap listEncodings).dedup
  (journals hash opts ops).all (fun journal => journal.all BatchDBOp.isShort) &&
    all.all (fun v => all.all (fun w => hash v != hash w || v == w))

theorem mem_listEncodings_of_occurring {hash : Bytes → Bytes} {opts : MPTOpts} {ops : List Op}
    (hshort : ∀ journal ∈ journals hash opts ops, ∀ op ∈ journal, op.isShort = true)
    {v : Bytes} (hv : v ∈ occurring hash opts ops) :
    v ∈ (journals hash opts ops).flatMap listEncodings := by
  obtain ⟨before, t, hbefore, hrun, hv⟩ := hv
  have hjournal : t.journal ∈ journals hash opts ops := by
    refine mem_filterMap.mpr ⟨before, mem_inits _ _ |>.mpr hbefore, ?_⟩
    rw [hrun]
  exact mem_flatMap.mpr ⟨_, hjournal, mem_listEncodings (hshort _ hjournal) hv⟩

theorem injOn_of_collisionFree {hash : Bytes → Bytes} {opts : MPTOpts} {ops : List Op}
    (h : collisionFree hash opts ops = true) : Set.InjOn hash (occurring hash opts ops) := by
  simp only [collisionFree, Bool.and_eq_true, all_eq_true, mem_dedup, Bool.or_eq_true,
    bne_iff_ne, beq_iff_eq] at h
  obtain ⟨hshort, hall⟩ := h
  intro v hv w hw hsame
  exact (hall v (mem_listEncodings_of_occurring hshort hv) w
    (mem_listEncodings_of_occurring hshort hw)).resolve_left (fun hne => hne hsame)

/-- The hash function that takes the entries of `table` where they say, as numbers of 32 bytes. -/
def tableHash (table : List (Bytes × Nat)) (m : Bytes) : Bytes :=
  (List.range 32).map (fun i => UInt8.ofNat ((table.lookup m).getD 0 / 256 ^ (31 - i)))

theorem length_tableHash (table : List (Bytes × Nat)) (m : Bytes) :
    (tableHash table m).length = 32 := by
  rw [tableHash, length_map, length_range]

/-! ## Reading after any run -/

variable {hash : Bytes → Bytes}

/-- Without pruning a run that removes cleanly reads as the finite map. -/
theorem run_read {opts : MPTOpts} (hlen : ∀ m, (hash m).length = 32)
    (hprune : opts.useNodePruning = false) {ops : List Op} (hkeys : ∀ op ∈ ops, op.key.val ≠ [])
    (hinj : Set.InjOn hash (occurring hash opts ops)) (hclean : RemovesCleanly hash opts ops)
    (key : Bytes) (hkey : opts.useKeyHashing = true →
      Set.InjOn hash (insert key {k | ∃ op ∈ ops, op.key.val = k})) :
    ∃ s, run hash opts ops = .ok s ∧ s.read hash key = .ok ((entries ops key).map Item.bytes) := by
  have hroot : EachStep ops (fun before op =>
      keyNibbles hash opts op.key = [] → (treeOf hash opts before).isBranch = false) := by
    intro before op hbefore hnil
    have hmem : op ∈ ops := hbefore.subset (mem_append.mpr (.inr (mem_singleton_self op)))
    exact absurd hnil (keyNibbles_ne_nil hlen opts (hkeys op hmem))
  obtain ⟨s, hrun, hgood, rfl⟩ := run_good hlen hprune hroot hclean hinj
  refine ⟨s, hrun, ?_⟩
  have hget := read_spec hlen hgood key
  have hlookup := lookup_treeOf hroot hclean (keyNibbles_inj hkey)
  rw [← hlookup]
  exact hget

/-- Keccak-256 on the encodings that occur in the runs below. -/
def prefixKeysHash : Bytes → Bytes := tableHash [
  ([0x80],
    0x56e81f171bcc55a6ff8345e692c0f86e5b48e01b996cadc001622fb5e363b421),
  ([0xc4, 0x82, 0x20, 0x12, 0x01],
    0x2de332538c255946ed2004d4ffd707d8952bfe28bd6a3e5dc5680b63a498f62c),
  ([0xd7, 0x82, 0x00, 0x12, 0xd3, 0x80, 0x80, 0x80, 0xc2, 0x34, 0x02, 0x80, 0x80, 0x80,
    0x80, 0x80, 0x80, 0x80, 0x80, 0x80, 0x80, 0x80, 0x80, 0x01],
    0x35062a673d177484c2be30060f4e3b5209c8130b9a6e78ac931e0ee0232c6ea3),
  ([0xd3, 0x80, 0x80, 0x80, 0xc2, 0x34, 0x02, 0x80, 0x80, 0x80, 0x80, 0x80, 0x80, 0x80,
    0x80, 0x80, 0x80, 0x80, 0x80, 0x01],
    0x8046290fb12e5324c246546e4310c8d241310af18d6de88aac2d26587adfbd65),
  ([0xc2, 0x34, 0x02],
    0x03663fe299f49ea1d93564d7526dd73d68ba04d32246191a035db4a5244628a2),
  ([0xd9, 0x82, 0x00, 0x12, 0xd5, 0x80, 0x80, 0x80, 0xc2, 0x34, 0x02, 0x80, 0xc2, 0x36,
    0x03, 0x80, 0x80, 0x80, 0x80, 0x80, 0x80, 0x80, 0x80, 0x80, 0x80, 0x01],
    0x4c37fe5eeb035ead8c91bd4b10ba20a88d76d3f1f4b1601423391b43d5cf916a),
  ([0xd5, 0x80, 0x80, 0x80, 0xc2, 0x34, 0x02, 0x80, 0xc2, 0x36, 0x03, 0x80, 0x80, 0x80,
    0x80, 0x80, 0x80, 0x80, 0x80, 0x80, 0x80, 0x01],
    0x19c83ed4e964ca94144a5e8de1e5278483f8ecde6e224aab81a14b158835ebee),
  ([0xc2, 0x36, 0x03],
    0xceef8b71ba50dc102579eacaa6c8c432fa958eec1a367d6d7c39b4f035072b6d),
  ([0xd5, 0x82, 0x00, 0x12, 0xd1, 0x80, 0x80, 0x80, 0x80, 0x80, 0x80, 0x80, 0x80, 0x80,
    0x80, 0x80, 0x80, 0x80, 0x80, 0x80, 0x80, 0x01],
    0xf7bdbd2dd5468794b0ac78d4393516fd751c7585ede649689bb97a48a323cd18),
  ([0xd1, 0x80, 0x80, 0x80, 0x80, 0x80, 0x80, 0x80, 0x80, 0x80, 0x80, 0x80, 0x80, 0x80,
    0x80, 0x80, 0x80, 0x01],
    0xc5ffba6f7cd3f06d4fde3aa74dea4ce04a5c917489f76343cddb29ae802681e9)]

def plainOpts : MPTOpts := ⟨false, false⟩

/-- The keys `12` and `12 34`; the longer one is removed. -/
def prefixKeysRun : List Op :=
  [.put ⟨[0x12], by decide⟩ ⟨[1], by decide⟩, .put ⟨[0x12, 0x34], by decide⟩ ⟨[2], by decide⟩,
    .del ⟨[0x12, 0x34], by decide⟩]

/-- The key `12` and two keys that it begins; `12` is removed. -/
def branchValueRun : List Op :=
  [.put ⟨[0x12], by decide⟩ ⟨[1], by decide⟩, .put ⟨[0x12, 0x34], by decide⟩ ⟨[2], by decide⟩,
    .put ⟨[0x12, 0x56], by decide⟩ ⟨[3], by decide⟩, .del ⟨[0x12], by decide⟩]

theorem run_read_prefixKeys : ∃ s, run prefixKeysHash plainOpts prefixKeysRun = .ok s ∧
    s.read prefixKeysHash [0x12] = .ok ((entries prefixKeysRun [0x12]).map Item.bytes) :=
  run_read (length_tableHash _) rfl (by decide) (injOn_of_collisionFree (by decide +kernel))
    (by decide +kernel) [0x12] nofun

/-- The value of a branch with two children is still there after its key has been deleted. -/
theorem branchValueRun_not_read :
    Set.InjOn prefixKeysHash (occurring prefixKeysHash plainOpts branchValueRun) ∧
      ¬ ∃ s, run prefixKeysHash plainOpts branchValueRun = .ok s ∧
        s.read prefixKeysHash [0x12] = .ok ((entries branchValueRun [0x12]).map Item.bytes) := by
  refine ⟨injOn_of_collisionFree (by decide +kernel), ?_⟩
  rintro ⟨s, hrun, hread⟩
  have hstays : (run prefixKeysHash plainOpts branchValueRun).map
      (fun s => s.read prefixKeysHash [0x12]) = .ok (.ok (some (.bytes [1]))) := by decide +kernel
  have hgone : entries branchValueRun [0x12] = none := by decide +kernel
  rw [hrun, Except.map, hread, hgone] at hstays
  cases hstays

end MPT
