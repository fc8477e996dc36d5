-- SUMMARY: A tree whose database stores a trie: what findPath and get find in it.
import TsEthereum.StateManager.BinaryTree.Binding

/-!
# Reading a stored trie

The database of a tree stores the nodes of a trie under their digests. `findPath` then
walks down the trie along the bits of its key, and `get` reads the stem node at the end.
-/

open List Nat

namespace StateManager.BinaryTree

open BinaryNode SplitTrie

/-- The number of bits of a stem. -/
def STEM_BITS : Nat := 248

variable (hashFunction : Bytes → Bytes)

/-- The database holds every subtrie as its node. -/
def Stored (db : MapDB) (l : List (Bits × Trie)) : Prop :=
  ∀ x ∈ l, db.get (digest hashFunction x.2) = some (nodeOf hashFunction x.1 x.2).serialize

/-- The tree stands for the trie. -/
structure Represents (occurring : List Bytes) (b : BinaryTree) (t : Trie) : Prop where
  fits : t.Fits stemBits STEM_BITS []
  occurs : Occurs hashFunction occurring t
  root : b._root = digest hashFunction t
  stored : Stored hashFunction b._db (t.subtries [])

/-- The stack of the nodes for subtries, each with its path. -/
def stackOf (l : List (Bits × Trie)) : List (BinaryNode × Bits) :=
  l.map fun x => (nodeOf hashFunction x.1 x.2, x.1)

/-- The path that `findPath` returns where its walk ends in a context. -/
def endOfPath (key remaining : Bits) (walk : Context StemBinaryNode × Trie) : Path :=
  let stack := stackOf hashFunction (upward [] walk.1 walk.2)
  match walk.2 with
  | .leaf a =>
    if stemBits a = key then ⟨some (.stem a), [], stack⟩
    else ⟨none, remaining, (.stem a, key.take (matchingBitsLength key (stemBits a))) :: stack⟩
  | _ => ⟨none, remaining, stack⟩

variable {hashFunction} {occurring : List Bytes}

/-! ## Bits of stems -/

theorem matchingBitsLength_begins {p key : Bits} (h : p <+: key) :
    matchingBitsLength key p = p.length := by
  obtain ⟨l, rfl⟩ := h
  induction p with
  | nil => cases l <;> rfl
  | cons b p ih => simp [matchingBitsLength, ih]

variable {a : StemBinaryNode}

theorem length_stemBits (ha : StemFits a) : (stemBits a).length = STEM_BITS := by
  rw [stemBits, length_bytesToBits, Option.getD_none, ha.1]
  rfl

theorem length_bits_of_stem {stem : Bytes} (hstem : stem.length = 31) :
    (bytesToBits stem none).length = STEM_BITS := by
  rw [length_bytesToBits, Option.getD_none, hstem]
  rfl

/-- A stem node is found by the bits of its stem. -/
theorem stemBits_eq_iff (ha : StemFits a) {stem : Bytes} (hstem : stem.length = 31) :
    stemBits a = bytesToBits stem none ↔ a.stem = stem :=
  ⟨bytesToBits_inj (ha.1.trans hstem.symm), fun h => h ▸ rfl⟩

variable {t : Trie}

theorem Occurs.of_mem_leaves (ht : Occurs hashFunction occurring t) (ha : a ∈ t.leaves) :
    Occurs hashFunction occurring (.leaf a) := by
  induction t with
  | empty => cases ha
  | leaf b => exact mem_singleton.mp ha ▸ ht
  | node left right ihl ihr =>
    rcases mem_append.mp ha with ha | ha
    · exact ihl ht.2.2.1 ha
    · exact ihr ht.2.2.2 ha

theorem Occurs.stemFits (ht : Occurs hashFunction occurring t) : ∀ a ∈ t.leaves, StemFits a :=
  fun _ ha => (ht.of_mem_leaves ha).1

/-! ## The walk down -/

theorem exists_reference {p : Bits} (hne : t ≠ .empty) :
    ∃ next, reference hashFunction p t = some next := by
  cases t with
  | empty => exact absurd rfl hne
  | leaf a => exact ⟨_, rfl⟩
  | node left right => exact ⟨_, rfl⟩

section Walk

variable {db : MapDB} {key : Bits} (hkey : key.length = STEM_BITS)

include hkey

variable {c : Context StemBinaryNode}

/-- A leaf ends the walk, as the node of the key or as another one. -/
theorem followChildren_leaf {fuel : Nat} {a : StemBinaryNode} (ha : StemFits a)
    (hstored : Stored hashFunction db [(c.bits, .leaf a)]) :
    ∃ remaining, followChildren db key (fuel + 1) (reference hashFunction c.bits (.leaf a))
        (stackOf hashFunction (upward [] c (.leaf a))) =
      .ok (endOfPath hashFunction key remaining (c, .leaf a)) := by
  have hget : db.get (digest hashFunction (.leaf a)) = some (BinaryNode.stem a).serialize :=
    hstored _ (mem_singleton_self _)
  have hdecode := decodeBinaryNode_serialize (show (BinaryNode.stem a).Fits from ha)
  have hbits := length_stemBits ha
  refine ⟨key.drop (matchingBitsLength key (stemBits a)), ?_⟩
  simp only [followChildren, reference, hget, hdecode, bind, Except.bind, endOfPath]
  split
  · next h =>
    -- The whole path of the child was matched.
    have heq : stemBits a = key := by
      apply Classical.byContradiction
      intro hne
      have hlt := ((matchingBitsLength_spec key (stemBits a)).2 (hkey.trans hbits.symm)
        (Ne.symm hne)).1
      omega
    have hmatch : matchingBitsLength key (stemBits a) = key.length := by
      rw [heq, matchingBitsLength_begins (prefix_refl key)]
    rw [if_pos ⟨hmatch, decide_eq_true heq.symm⟩, if_pos heq]
  · next h =>
    have hne : stemBits a ≠ key := by
      intro heq
      apply h
      rw [heq, matchingBitsLength_begins (prefix_refl key)]
      exact ⟨rfl, .inl rfl⟩
    rw [if_neg hne]

variable (hlen : ∀ msg, (hashFunction msg).length = 32)

include hlen

/-- At a node the bit of the key chooses the child, and the walk ends where there is none. -/
theorem followChildren_node (fuel : Nat) {left right : Trie} {b : Bool} {rest : Bits}
    (hfits : (SplitTrie.node left right).Fits stemBits STEM_BITS c.bits)
    (hstems : ∀ a ∈ (SplitTrie.node left right).leaves, StemFits a)
    (hstored : Stored hashFunction db [(c.bits, .node left right)])
    (hbits : key = c.bits ++ b :: rest) :
    followChildren db key (fuel + 1) (reference hashFunction c.bits (.node left right))
        (stackOf hashFunction (upward [] c (.node left right))) =
      match reference hashFunction (Context.bits ((b, child (!b) left right) :: c))
        (child b left right) with
      | none => .ok ⟨none, key.drop c.bits.length, stackOf hashFunction
          (upward [] ((b, child (!b) left right) :: c) (child b left right))⟩
      | some next => followChildren db key fuel (some next) (stackOf hashFunction
          (upward [] ((b, child (!b) left right) :: c) (child b left right))) := by
  subst hbits
  have hlt := hfits.length_lt
  have hget : db.get (digest hashFunction (.node left right)) =
      some (nodeOf hashFunction c.bits (.node left right)).serialize :=
    hstored _ (mem_singleton_self _)
  have hdecode := decodeBinaryNode_serialize (fits_nodeOf hlen (p := c.bits)
    (fun h => (nomatch h) : SplitTrie.node left right ≠ .empty) (Nat.lt_trans hlt (by decide)) hstems)
  have hmatch : matchingBitsLength (c.bits ++ b :: rest) c.bits = c.bits.length :=
    matchingBitsLength_begins (prefix_append _ _)
  -- The key goes on after the path, and the node is no stem node.
  have hcond : ¬(c.bits.length = (c.bits ++ b :: rest).length ∨
      (nodeOf hashFunction c.bits (.node left right)).isStemBinaryNode = true) := by
    rintro (heq | hstem)
    · exact absurd (heq.trans hkey) (Nat.ne_of_lt hlt)
    · cases hstem
  have hbit : (c.bits ++ b :: rest)[c.bits.length]? = some b := by simp
  have htake : (c.bits ++ b :: rest).take c.bits.length = c.bits := by simp
  have hchild : (InternalBinaryNode.mk (reference hashFunction (c.bits ++ [false]) left)
      (reference hashFunction (c.bits ++ [true]) right)).getChild b =
        reference hashFunction (Context.bits ((b, child (!b) left right) :: c)) (child b left right) := by
    rw [Context.bits_cons]
    cases b <;> rfl
  have hstack : stackOf hashFunction (upward [] ((b, child (!b) left right) :: c) (child b left right)) =
      (nodeOf hashFunction c.bits (.node left right), c.bits) ::
        stackOf hashFunction (upward [] c (.node left right)) := by
    simp [upward, stackOf]
  rw [show reference hashFunction c.bits (.node left right) =
    some ⟨digest hashFunction (.node left right), c.bits⟩ from rfl, followChildren]
  simp only [hget, hdecode, bind, Except.bind, hmatch, true_and, if_neg hcond, htake, hstack]
  simp only [nodeOf, hbit, childAt, hchild]
  split <;> simp_all

/-- The walk from a subtrie on the way of the key goes down the trie. -/
theorem followChildren_spec {fuel : Nat} {s : Trie} (hfits : s.Fits stemBits STEM_BITS c.bits)
    (hstems : ∀ a ∈ s.leaves, StemFits a) (hstored : Stored hashFunction db (s.subtries c.bits))
    (hpath : c.bits <+: key) (hfuel : STEM_BITS < fuel + c.length) :
    ∃ remaining, followChildren db key fuel (reference hashFunction c.bits s)
        (stackOf hashFunction (upward [] c s)) =
      .ok (endOfPath hashFunction key remaining (descend (key.drop c.length) s c)) := by
  have hle := hpath.length_le
  rw [Context.length_bits, hkey] at hle
  obtain ⟨fuel, rfl⟩ : ∃ fuel', fuel = fuel' + 1 := exists_eq_succ_of_ne_zero (by omega)
  induction s generalizing fuel c with
  | empty =>
    have hend : descend (key.drop c.length) .empty c = (c, .empty) := by
      cases key.drop c.length <;> rfl
    rw [hend]
    exact ⟨key, rfl⟩
  | leaf a =>
    have hend : descend (key.drop c.length) (.leaf a) c = (c, .leaf a) := by
      cases key.drop c.length <;> rfl
    rw [hend]
    exact followChildren_leaf hkey (hstems a (mem_singleton_self a)) hstored
  | node left right ihl ihr =>
    have hlt := hfits.length_lt
    rw [Context.length_bits] at hlt
    obtain ⟨b, rest, hbits⟩ : ∃ b rest, key = c.bits ++ b :: rest := by
      obtain ⟨l, rfl⟩ := hpath
      cases l with
      | nil => exact absurd hkey (by simpa using Nat.ne_of_lt hlt)
      | cons b rest => exact ⟨b, rest, rfl⟩
    have hside : (child b left right).Fits stemBits STEM_BITS (c.bits ++ [b]) ∧
        (∀ a ∈ (child b left right).leaves, StemFits a) ∧
        Stored hashFunction db ((child b left right).subtries (c.bits ++ [b])) := by
      cases b with
      | false => exact ⟨hfits.1, fun a ha => hstems a (mem_append_left _ ha),
          fun x hx => hstored x (mem_cons_of_mem _ (mem_append_left _ hx))⟩
      | true => exact ⟨hfits.2.1, fun a ha => hstems a (mem_append_right _ ha),
          fun x hx => hstored x (mem_cons_of_mem _ (mem_append_right _ hx))⟩
    have hpath' : Context.bits ((b, child (!b) left right) :: c) <+: key := by
      rw [Context.bits_cons, hbits]
      exact ⟨rest, by simp⟩
    have hwalk : descend (key.drop c.length) (.node left right) c =
        descend (key.drop (c.length + 1)) (child b left right) ((b, child (!b) left right) :: c) := by
      have hdrop : key.drop c.length = b :: key.drop (c.length + 1) := by
        simp [hbits, ← Context.length_bits]
      rw [hdrop]
      rfl
    have hnode := followChildren_node hkey hlen fuel hfits hstems
      (fun x hx => hstored x (mem_singleton.mp hx ▸ mem_cons_self)) hbits
    rw [hwalk, hnode]
    rcases Classical.em (child b left right = .empty) with hempty | hnonempty
    · have hend : ∀ l, descend l (child b left right) ((b, child (!b) left right) :: c) =
          ((b, child (!b) left right) :: c, .empty) := by
        intro l
        rw [hempty]
        cases l <;> rfl
      refine ⟨key.drop c.bits.length, ?_⟩
      rw [hend, hempty]
      rfl
    · obtain ⟨next, hnext⟩ := exists_reference hnonempty
      rw [hnext]
      have ih : ∃ remaining, followChildren db key fuel
          (reference hashFunction (Context.bits ((b, child (!b) left right) :: c)) (child b left right))
          (stackOf hashFunction (upward [] ((b, child (!b) left right) :: c) (child b left right))) =
            .ok (endOfPath hashFunction key remaining (descend (key.drop (c.length + 1))
              (child b left right) ((b, child (!b) left right) :: c))) := by
        rw [← Context.bits_cons (s := child (!b) left right)] at hside
        have hlength : ((b, child (!b) left right) :: c).length = c.length + 1 := length_cons
        obtain ⟨fuel, rfl⟩ : ∃ fuel', fuel = fuel' + 1 := exists_eq_succ_of_ne_zero (by omega)
        cases b with
        | false =>
          exact ihl hside.1 hside.2.1 hside.2.2 hpath' (by omega) fuel (by omega)
        | true =>
          exact ihr hside.1 hside.2.1 hside.2.2 hpath' (by omega) fuel (by omega)
      rw [hnext] at ih
      exact ih

end Walk

/-! ## Finding and reading -/

section Reads

variable (hlen : ∀ msg, (hashFunction msg).length = 32) (hno : NoCollision hashFunction occurring)
  {b : BinaryTree}

include hlen hno

variable {t : Trie}

theorem Represents.root_ne (h : Represents hashFunction occurring b t) (hne : t ≠ .empty) :
    b._root ≠ EMPTY_TREE_ROOT :=
  h.root ▸ digest_ne_zeros hno hlen h.occurs hne

theorem findPath_leaf (fuel : Nat) {a : StemBinaryNode}
    (h : Represents hashFunction occurring b (.leaf a)) (stem : Bytes) :
    findPath fuel b stem = .ok (if stem = a.stem then ⟨some (.stem a), [], [(.stem a, [])]⟩
      else ⟨none, bytesToBits stem none, [(.stem a, [])]⟩) := by
  have hroot := h.root_ne hlen hno fun h => nomatch h
  have hget : b._db.get b._root = some (BinaryNode.stem a).serialize := by
    rw [h.root]
    exact h.stored ([], .leaf a) (mem_singleton_self _)
  have hdecode := decodeBinaryNode_serialize (show (BinaryNode.stem a).Fits from h.occurs.1)
  simp only [findPath, if_neg hroot, hget, hdecode, bind, Except.bind]
  split <;> rfl

variable {stem : Bytes}

theorem findPath_node {fuel : Nat} (hfuel : STEM_BITS ≤ fuel) {left right : Trie}
    (h : Represents hashFunction occurring b (.node left right)) (hstem : stem.length = 31) :
    ∃ remaining, findPath fuel b stem = .ok (endOfPath hashFunction (bytesToBits stem none) remaining
      (descend (bytesToBits stem none) (.node left right) [])) := by
  have hroot := h.root_ne hlen hno fun h => nomatch h
  have hget : b._db.get b._root = some (nodeOf hashFunction [] (.node left right)).serialize := by
    rw [h.root]
    exact h.stored ([], .node left right) mem_cons_self
  have hdecode := decodeBinaryNode_serialize (fits_nodeOf hlen (p := [])
    (fun h => (nomatch h) : SplitTrie.node left right ≠ .empty) (by decide) h.occurs.stemFits)
  have hkey := length_bits_of_stem hstem
  obtain ⟨bit, rest, hbits⟩ := exists_cons_of_length_pos (l := bytesToBits stem none)
    (by rw [hkey]; decide)
  have hchild : childAt ⟨reference hashFunction ([] ++ [false]) left,
      reference hashFunction ([] ++ [true]) right⟩ (bytesToBits stem none)[0]? =
        .ok (reference hashFunction (Context.bits [(bit, child (!bit) left right)])
          (child bit left right)) := by
    rw [hbits]
    cases bit <;> rfl
  have hstack : stackOf hashFunction (upward [] [(bit, child (!bit) left right)] (child bit left right)) =
      [(nodeOf hashFunction [] (.node left right), [])] := by
    simp [upward, stackOf]
  have hside : (child bit left right).Fits stemBits STEM_BITS [bit] ∧
      (∀ a ∈ (child bit left right).leaves, StemFits a) ∧
      Stored hashFunction b._db ((child bit left right).subtries [bit]) := by
    have hstems := h.occurs.stemFits
    cases bit with
    | false => exact ⟨h.fits.1, fun a ha => hstems a (mem_append_left _ ha),
        fun x hx => h.stored x (mem_cons_of_mem _ (mem_append_left _ hx))⟩
    | true => exact ⟨h.fits.2.1, fun a ha => hstems a (mem_append_right _ ha),
        fun x hx => h.stored x (mem_cons_of_mem _ (mem_append_right _ hx))⟩
  obtain ⟨remaining, hwalk⟩ := followChildren_spec hkey hlen (c := [(bit, child (!bit) left right)])
    hside.1 hside.2.1 hside.2.2 (hbits ▸ ⟨rest, rfl⟩) (lt_succ_of_le hfuel)
  refine ⟨remaining, ?_⟩
  rw [hstack] at hwalk
  have hdescend : descend (bytesToBits stem none) (.node left right) [] =
      descend ((bytesToBits stem none).drop 1) (child bit left right)
        [(bit, child (!bit) left right)] := by
    rw [hbits]
    rfl
  rw [hdescend]
  simp only [findPath, if_neg hroot, hget, hdecode, bind, Except.bind]
  simp only [nodeOf, hchild]
  exact hwalk

omit hlen hno in
/-- The end of the walk along a stem: the stem of no leaf beside the walk is this one. -/
theorem Represents.walk (h : Represents hashFunction occurring b t) (hstem : stem.length = 31)
    {c : Context StemBinaryNode} {f : Trie} (hwalk : descend (bytesToBits stem none) t [] = (c, f)) :
     plug f c = t ∧ c.bits <+: bytesToBits stem none ∧ (∀ left right, f ≠ .node left right) ∧
      ∀ a ∈ c.leaves, a.stem ≠ stem := by
  have hplug := plug_descend (bytesToBits stem none) t []
  have hbits := bits_descend (bytesToBits stem none) t []
  rw [hwalk] at hplug hbits
  have hplug : plug f c = t := hplug
  have hctx := (fits_plug.mp (hplug.symm ▸ h.fits)).2
  refine ⟨hplug, hbits, ?_, ?_⟩
  · intro left right
    have hnode : (descend (bytesToBits stem none) t []).2 ≠ .node left right :=
      descend_not_node (c := []) h.fits ((Nat.zero_add _).trans (length_bits_of_stem hstem))
    rw [hwalk] at hnode
    exact hnode
  · rintro a ha rfl
    exact hctx.not_prefix ha hbits

/-- `get` returns the values of the stem node of the stem, and no values where there is none. -/
theorem get_spec {fuel : Nat} (hfuel : STEM_BITS ≤ fuel) (h : Represents hashFunction occurring b t)
    (hstem : stem.length = 31) (suffixes : List Nat) :
    (∃ a ∈ t.leaves, a.stem = stem ∧ get fuel b stem suffixes = .ok (suffixes.map a.getValue)) ∨
      ((∀ a ∈ t.leaves, a.stem ≠ stem) ∧ get fuel b stem suffixes = .ok []) := by
  have hlength : ¬ stem.length ≠ 31 := fun hne => hne hstem
  have hfound (path : Path) (hpath : findPath fuel b stem = .ok path) {found : StemBinaryNode}
      (hnode : path.node = some (.stem found)) :
      get fuel b stem suffixes = .ok (suffixes.map found.getValue) := by
    simp only [get, if_neg hlength, hpath, hnode, bind, Except.bind, pure, Except.pure]
  have hmissed (path : Path) (hpath : findPath fuel b stem = .ok path) (hnode : path.node = none) :
      get fuel b stem suffixes = .ok [] := by
    simp only [get, if_neg hlength, hpath, hnode, bind, Except.bind, pure, Except.pure]
  cases t with
  | empty =>
    have hroot : b._root = EMPTY_TREE_ROOT := h.root
    refine .inr ⟨by rintro _ ⟨⟩, hmissed ⟨none, bytesToBits stem none, []⟩ ?_ rfl⟩
    rw [findPath, if_pos hroot]
  | leaf a =>
    have hpath := findPath_leaf hlen hno fuel h stem
    split at hpath
    · next heq =>
      exact .inl ⟨a, mem_singleton_self a, heq.symm, hfound _ hpath rfl⟩
    · next hne =>
      exact .inr ⟨fun x hx => mem_singleton.mp hx ▸ Ne.symm hne, hmissed _ hpath rfl⟩
  | node left right =>
    obtain ⟨remaining, hpath⟩ := findPath_node hlen hno hfuel h hstem
    generalize hwalk : descend (bytesToBits stem none) (.node left right) [] = walk at hpath
    obtain ⟨c, f⟩ := walk
    obtain ⟨hplug, -, hnode, hbeside⟩ := h.walk hstem hwalk
    have hleaves := (hplug ▸ leaves_plug f c : (SplitTrie.node left right).leaves.Perm _)
    cases f with
    | empty =>
      refine .inr ⟨fun a ha => ?_, hmissed _ hpath rfl⟩
      exact hbeside a (hleaves.mem_iff.mp ha)
    | node l r => exact absurd rfl (hnode l r)
    | leaf a =>
      have ha : a ∈ (SplitTrie.node left right).leaves := hleaves.mem_iff.mpr mem_cons_self
      have hkey := stemBits_eq_iff (h.occurs.stemFits a ha) hstem
      rcases Classical.em (stemBits a = bytesToBits stem none) with heq | hne
      · simp only [endOfPath, if_pos heq] at hpath
        exact .inl ⟨a, ha, hkey.mp heq, hfound _ hpath rfl⟩
      · simp only [endOfPath, if_neg hne] at hpath
        refine .inr ⟨fun x hx => ?_, hmissed _ hpath rfl⟩
        rcases mem_cons.mp (hleaves.mem_iff.mp hx) with rfl | hx
        · exact fun heq => hne (hkey.mpr heq)
        · exact hbeside x hx

end Reads

end StateManager.BinaryTree
