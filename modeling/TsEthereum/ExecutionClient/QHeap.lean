-- SUMMARY: The array heap of `ext/qheap.ts`: `insert`, `peek` and `remove`, what they keep of the heap order and what they do to the contents.
import TsEthereum.Base.ImplicitHeap

/-!
# QHeap

The binary heap of `ext/qheap.ts`, with the tree packed into `_list[1..length]`.
`_isBefore` is a parameter of every operation. The slots outside `1..length`
hold leftovers (`undefined` or `0` in the source, `default` here) that no
operation reads, so `_trimArraySize`, which only cuts such slots off, has no
counterpart.
-/

open Function

open ImplicitHeap

/-- The packed tree of a heap. -/
structure Heap (α : Type) where
  list : Nat → α
  length : Nat

namespace Heap

variable {α : Type} (isBefore : α → α → Bool)

/-- `new Heap(opts)`. -/
def empty [Inhabited α] : Heap α where
  list := fun _ => default
  length := 0

/-- The loop of `_bubbleup`: `idx` is the hole that `item` is to fill. Each round
halves `idx`, so `idx` rounds are enough. -/
def bubbleupLoop (item : α) : Nat → (Nat → α) → Nat → Nat → α
  | 0, list, idx => Function.update list idx item
  | rounds + 1, list, idx =>
    if idx ≤ 1 then Function.update list idx item
    else if isBefore item (list (idx / 2)) then
      bubbleupLoop item rounds (Function.update list idx (list (idx / 2))) (idx / 2)
    else Function.update list idx item

def insert (h : Heap α) (item : α) : Heap α where
  list := bubbleupLoop isBefore item (h.length + 1) h.list (h.length + 1)
  length := h.length + 1

/-- `undefined` for an empty heap. -/
def peek (h : Heap α) : Option α :=
  if h.length > 0 then some (h.list 1) else none

/-- The child that `_bubbledown` compares with the sinking item. -/
def firstChild (list : Nat → α) (r : Nat) : Nat :=
  if isBefore (list (2 * r + 1)) (list (2 * r)) then 2 * r + 1 else 2 * r

/-- The loop of `_bubbledown`: `r` is the hole that `itm` is to fill. Each round
doubles `r`, so `len` rounds are enough. -/
def bubbledownLoop (itm : α) (len : Nat) : Nat → (Nat → α) → Nat → Nat → α
  | 0, list, r => Function.update list r itm
  | rounds + 1, list, r =>
    if 2 * r < len then
      if isBefore (list (firstChild isBefore list r)) itm then
        bubbledownLoop itm len rounds
          (Function.update list r (list (firstChild isBefore list r))) (firstChild isBefore list r)
      else Function.update list r itm
    else Function.update list r itm

/-- Returns the root, and bubbles the last item down from the top. -/
def remove [Inhabited α] (h : Heap α) : Option α × Heap α :=
  if h.length < 1 then (none, h)
  else
    (some (h.list 1),
      { list := Function.update
          (bubbledownLoop isBefore (h.list h.length) h.length h.length h.list 1) h.length default
        length := h.length - 1 })

/-- The stored items. -/
def items (h : Heap α) : Multiset α := contents h.list h.length

/-- The heap order at the indices `1..length`. -/
def Valid (h : Heap α) : Prop := Ordered isBefore h.list h.length

@[simp] theorem card_items (h : Heap α) : h.items.card = h.length := card_contents _ _

@[simp] theorem items_empty [Inhabited α] : (empty : Heap α).items = 0 := rfl

theorem valid_empty [Inhabited α] : Valid isBefore (empty : Heap α) := by
  intro i h2 h0
  simp only [empty] at h0
  omega

/-! ## insert -/

@[simp] theorem length_insert (h : Heap α) (item : α) :
    (h.insert isBefore item).length = h.length + 1 := rfl

variable {n : Nat}

theorem bubbleupLoop_contents {item : α} :
    ∀ (rounds : Nat) (list : Nat → α) (idx : Nat), 1 ≤ idx → idx ≤ n →
      contents (bubbleupLoop isBefore item rounds list idx) n =
        contents (Function.update list idx item) n := by
  intro rounds
  induction rounds with
  | zero => intro list idx _ _; rfl
  | succ rounds ih =>
    intro list idx h1 hn
    simp only [bubbleupLoop]
    split
    · rfl
    · split
      · rw [ih _ _ (by omega) (by omega)]
        exact contents_move_hole list item (by omega) ⟨h1, hn⟩ ⟨by omega, by omega⟩
      · rfl

/-- The carried item is not after the children of its hole: this and the order
off the hole is what each round of `_bubbleup` keeps. -/
theorem bubbleupLoop_ordered {isBefore : α → α → Bool} (hw : StrictWeak isBefore) {item : α} :
    ∀ (rounds : Nat) (list : Nat → α) (idx : Nat), idx ≤ rounds → 1 ≤ idx → idx ≤ n →
      OrderedOff isBefore list n idx →
      (∀ i, 2 ≤ i → i ≤ n → i / 2 = idx → isBefore (list i) item = false) →
      Ordered isBefore (bubbleupLoop isBefore item rounds list idx) n := by
  intro rounds
  induction rounds with
  | zero => intro list idx hr h1; omega
  | succ rounds ih =>
    intro list idx hr h1 hn hoff hbelow
    simp only [bubbleupLoop]
    split
    · rename_i hroot
      exact hoff.place (by omega) hbelow
    · rename_i hroot
      split
      · rename_i hmove
        have hup := hoff.up hw (by omega) hn hmove
        exact ih _ _ (by omega) (by omega) (by omega) hup.1 hup.2
      · rename_i hstop
        exact hoff.place (fun _ => by simpa using hstop) hbelow

theorem items_insert (h : Heap α) (item : α) :
    (h.insert isBefore item).items = item ::ₘ h.items := by
  simp only [items, insert]
  rw [bubbleupLoop_contents isBefore _ _ _ (by omega) (by omega), contents_succ, update_self]
  congr 1
  apply contents_congr
  intro i _ hi
  exact update_of_ne (by omega) _ _

variable {h : Heap α}

theorem valid_insert {isBefore : α → α → Bool} (hw : StrictWeak isBefore) (item : α)
    (hv : h.Valid isBefore) : (h.insert isBefore item).Valid isBefore := by
  rw [Valid, length_insert]
  apply bubbleupLoop_ordered hw _ _ _ (by omega) (by omega) (by omega)
  · exact Ordered.append_hole hv
  · intro i _ hi hp
    omega

/-! ## remove -/

theorem firstChild_cases (list : Nat → α) (r : Nat) :
    firstChild isBefore list r = 2 * r ∨ firstChild isBefore list r = 2 * r + 1 := by
  unfold firstChild
  split
  · exact Or.inr rfl
  · exact Or.inl rfl

variable {r : Nat}

/-- Neither child is before the one `_bubbledown` picks. -/
theorem firstChild_first {isBefore : α → α → Bool} (hw : StrictWeak isBefore) (list : Nat → α)
    {i : Nat} (hp : i / 2 = r) :
    isBefore (list i) (list (firstChild isBefore list r)) = false := by
  have hi : i = 2 * r ∨ i = 2 * r + 1 := by omega
  unfold firstChild
  split
  · rename_i hright
    rcases hi with rfl | rfl
    · exact hw.asymm _ _ hright
    · exact hw.irrefl _
  · rename_i hleft
    rcases hi with rfl | rfl
    · exact hw.irrefl _
    · simpa using hleft

/-- The slot `len` still holds the sinking item while it bubbles down: no round
writes there, and a round that picks it stops. -/
structure Sinking (isBefore : α → α → Bool) (itm : α) (n : Nat) (list : Nat → α) (r : Nat) : Prop where
  pos : 1 ≤ r
  le : r ≤ n
  last : r ≤ n → list (n + 1) = itm

variable {itm : α}

/-- A round that moves picks a child inside the shrunken tree: the child at
`len` is the sinking item itself, which is not before itself. -/
theorem firstChild_le {isBefore : α → α → Bool} (hw : StrictWeak isBefore) {list : Nat → α}
    (hs : Sinking isBefore itm n list r) (hr : 2 * r < n + 1)
    (hmove : isBefore (list (firstChild isBefore list r)) itm = true) :
    firstChild isBefore list r ≤ n := by
  rcases firstChild_cases isBefore list r with hc | hc
  · omega
  · by_contra hout
    have hlast : firstChild isBefore list r = n + 1 := by omega
    rw [hlast, hs.last hs.le, hw.irrefl] at hmove
    cases hmove

theorem Sinking.move {isBefore : α → α → Bool} {c : Nat} {list : Nat → α}
    (hs : Sinking isBefore itm n list r) (hc : 1 ≤ c) (hcn : c ≤ n) (x : α) :
    Sinking isBefore itm n (Function.update list r x) c where
  pos := hc
  le := hcn
  last := fun _ => by
    have hne : n + 1 ≠ r := by have := hs.le; omega
    rw [update_of_ne hne]
    exact hs.last hs.le

theorem bubbledownLoop_contents {isBefore : α → α → Bool} (hw : StrictWeak isBefore) :
    ∀ (rounds : Nat) (list : Nat → α) (r : Nat), Sinking isBefore itm n list r →
      contents (bubbledownLoop isBefore itm (n + 1) rounds list r) n =
        contents (Function.update list r itm) n := by
  intro rounds
  induction rounds with
  | zero => intro list r _; rfl
  | succ rounds ih =>
    intro list r hs
    have hpos := hs.pos
    simp only [bubbledownLoop]
    split
    · rename_i hlt
      split
      · rename_i hmove
        have hcn := firstChild_le hw hs hlt hmove
        have hc := firstChild_cases isBefore list r
        rw [ih _ _ (hs.move (by omega) hcn _)]
        exact contents_move_hole list itm (by omega) ⟨hpos, hs.le⟩ ⟨by omega, hcn⟩
      · rfl
    · rfl

theorem bubbledownLoop_ordered {isBefore : α → α → Bool} (hw : StrictWeak isBefore) :
    ∀ (rounds : Nat) (list : Nat → α) (r : Nat), n + 1 ≤ rounds + r → Sinking isBefore itm n list r →
      OrderedOff isBefore list n r →
      (2 ≤ r → isBefore itm (list (r / 2)) = false) →
      Ordered isBefore (bubbledownLoop isBefore itm (n + 1) rounds list r) n := by
  intro rounds
  induction rounds with
  | zero => intro list r hr hs; have := hs.le; omega
  | succ rounds ih =>
    intro list r hr hs hoff habove
    have hpos := hs.pos
    simp only [bubbledownLoop]
    split
    · rename_i hlt
      have hc := firstChild_cases isBefore list r
      split
      · rename_i hmove
        have hcn := firstChild_le hw hs hlt hmove
        have hdown := hoff.down hpos (c := firstChild isBefore list r) (by omega) hcn
          (fun i _ _ hp => firstChild_first hw list hp)
        apply ih _ _ (by omega) (hs.move (by omega) hcn _) hdown
        intro _
        have hparent : firstChild isBefore list r / 2 = r := by omega
        rw [hparent, update_self]
        exact hw.asymm _ _ hmove
      · rename_i hstop
        apply hoff.place habove
        intro i _ _ hp
        -- the picked child is not before the item, and no child is before the picked one
        exact hw.negTrans _ _ _ (by simpa using hstop) (firstChild_first hw list hp)
    · rename_i hge
      apply hoff.place habove
      intro i _ hin hp
      omega

section

variable [Inhabited α]

variable {h : Heap α}

theorem remove_of_length_zero (h0 : h.length = 0) : h.remove isBefore = (none, h) := by
  simp [remove, h0]

theorem remove_of_length_succ {n : Nat} (hn : h.length = n + 1) :
    h.remove isBefore = (some (h.list 1),
      { list := Function.update
          (bubbledownLoop isBefore (h.list (n + 1)) (n + 1) (n + 1) h.list 1) (n + 1) default
        length := n }) := by
  simp [remove, hn]

/-- `remove` returns the root, and keeps everything else. -/
theorem items_remove {isBefore : α → α → Bool} (hw : StrictWeak isBefore) (hpos : 0 < h.length) :
    (h.remove isBefore).1 = some (h.list 1) ∧
      h.items = h.list 1 ::ₘ (h.remove isBefore).2.items := by
  obtain ⟨n, hn⟩ : ∃ n, h.length = n + 1 := ⟨h.length - 1, by omega⟩
  rw [remove_of_length_succ isBefore hn]
  refine ⟨rfl, ?_⟩
  simp only [items]
  rw [hn, contents_take_root]
  congr 1
  have hkeep : contents (update
      (bubbledownLoop isBefore (h.list (n + 1)) (n + 1) (n + 1) h.list 1) (n + 1) default) n =
      contents (bubbledownLoop isBefore (h.list (n + 1)) (n + 1) (n + 1) h.list 1) n := by
    apply contents_congr
    intro i _ hi
    exact update_of_ne (by omega) _ _
  rw [hkeep]
  cases n with
  | zero => rfl
  | succ n =>
    exact (bubbledownLoop_contents hw _ _ _
      { pos := by omega, le := by omega, last := fun _ => rfl }).symm

theorem valid_remove {isBefore : α → α → Bool} (hw : StrictWeak isBefore) (hv : h.Valid isBefore) :
    (h.remove isBefore).2.Valid isBefore := by
  by_cases h0 : h.length = 0
  · rwa [remove_of_length_zero isBefore h0]
  obtain ⟨n, hn⟩ : ∃ n, h.length = n + 1 := ⟨h.length - 1, by omega⟩
  rw [Valid, hn] at hv
  rw [remove_of_length_succ isBefore hn, Valid]
  have hord : Ordered isBefore
      (bubbledownLoop isBefore (h.list (n + 1)) (n + 1) (n + 1) h.list 1) n := by
    cases n with
    | zero => intro i _ _; omega
    | succ n =>
      apply bubbledownLoop_ordered hw _ _ _ (by omega)
        { pos := by omega, le := by omega, last := fun _ => rfl }
      · exact Ordered.off_hole hw (fun i h2 hi => hv i h2 (by omega)) (by omega)
      · intro h2; omega
  intro i h2 hi
  simp only at hi ⊢
  rw [update_of_ne (by omega), update_of_ne (by omega)]
  exact hord i h2 hi

end

/-! ## peek -/

variable {a : α}

theorem peek_eq_some : h.peek = some a ↔ 0 < h.length ∧ h.list 1 = a := by
  simp [peek]

theorem peek_mem (hp : h.peek = some a) : a ∈ h.items := by
  obtain ⟨hpos, ha⟩ := peek_eq_some.mp hp
  exact mem_contents.mpr ⟨1, le_refl 1, hpos, ha⟩

/-- No stored item is before the one `peek` shows. -/
theorem peek_first {isBefore : α → α → Bool} (hw : StrictWeak isBefore) (hv : h.Valid isBefore)
    (hp : h.peek = some a) : ∀ b ∈ h.items, isBefore b a = false := by
  intro b hb
  obtain ⟨_, rfl⟩ := peek_eq_some.mp hp
  obtain ⟨i, h1, hi, rfl⟩ := mem_contents.mp hb
  exact Ordered.root_first hw hv h1 hi

/-! ## Runs -/

inductive Op (α : Type) where
  | insert (item : α)
  | remove

/-- The items that a call inserts. -/
def Op.inserted : Op α → Multiset α
  | insert item => {item}
  | remove => 0

variable [Inhabited α]

/-- One call, with the items that have been returned before. -/
def step (s : Heap α × Multiset α) : Op α → Heap α × Multiset α
  | .insert item => (s.1.insert isBefore item, s.2)
  | .remove => ((s.1.remove isBefore).2, s.2 + (s.1.remove isBefore).1.toList)

def run (ops : List (Op α)) : Heap α × Multiset α := ops.foldl (step isBefore) (empty, 0)

variable {isBefore : α → α → Bool} (hw : StrictWeak isBefore)
include hw

/-- What `remove` returns is stored, and nothing that is left is before it. -/
theorem remove_first (hv : h.Valid isBefore) :
    ((h.remove isBefore).1 = none ↔ h.items = 0) ∧
      ∀ a, (h.remove isBefore).1 = some a →
        h.items = a ::ₘ (h.remove isBefore).2.items ∧
          ∀ b ∈ (h.remove isBefore).2.items, isBefore b a = false := by
  by_cases h0 : h.length = 0
  · rw [remove_of_length_zero isBefore h0]
    exact ⟨iff_of_true rfl (Multiset.card_eq_zero.mp ((card_items h).trans h0)), fun a => nofun⟩
  · have hpos : 0 < h.length := Nat.pos_of_ne_zero h0
    obtain ⟨hroot, hitems⟩ := items_remove hw hpos
    rw [hroot]
    refine ⟨iff_of_false nofun (hitems ▸ Multiset.cons_ne_zero), fun a ha => ?_⟩
    obtain rfl := Option.some.inj ha
    exact ⟨hitems, fun b hb =>
      peek_first hw hv (if_pos hpos) b (hitems ▸ Multiset.mem_cons_of_mem hb)⟩

theorem step_keeps {s : Heap α × Multiset α} (hv : s.1.Valid isBefore) (op : Op α) :
    (step isBefore s op).1.Valid isBefore ∧
      (step isBefore s op).1.items + (step isBefore s op).2 = s.1.items + s.2 + op.inserted := by
  cases op with
  | insert item =>
    refine ⟨valid_insert hw item hv, ?_⟩
    dsimp only [step, Op.inserted]
    rw [items_insert, Multiset.cons_add, ← Multiset.singleton_add, add_comm]
  | remove =>
    refine ⟨valid_remove hw hv, ?_⟩
    obtain ⟨hnone, hsome⟩ := remove_first hw hv
    dsimp only [step, Op.inserted]
    cases hr : (s.1.remove isBefore).1 with
    | none =>
      have hlength : s.1.length = 0 := by rw [← card_items, hnone.mp hr, Multiset.card_zero]
      rw [remove_of_length_zero isBefore hlength]
      exact (congrArg (s.1.items + ·) (add_zero s.2)).trans (add_zero _).symm
    | some a =>
      rw [(hsome a hr).1, Multiset.cons_add, ← Multiset.singleton_add, add_zero, add_comm, add_right_comm,
        add_comm s.2]
      exact add_comm _ _

/-- In every run the array is in heap order, what has been inserted is stored or has been returned,
and what `remove` returns is stored and comes before all that is left. -/
theorem run_ordered (ops : List (Op α)) :
    (run isBefore ops).1.Valid isBefore ∧
      (run isBefore ops).1.items + (run isBefore ops).2 = (ops.map Op.inserted).sum ∧
      (((run isBefore ops).1.remove isBefore).1 = none ↔ (run isBefore ops).1.items = 0) ∧
      ∀ a, ((run isBefore ops).1.remove isBefore).1 = some a →
        (run isBefore ops).1.items = a ::ₘ ((run isBefore ops).1.remove isBefore).2.items ∧
          ∀ b ∈ ((run isBefore ops).1.remove isBefore).2.items, isBefore b a = false := by
  have hkeeps : (run isBefore ops).1.Valid isBefore ∧
      (run isBefore ops).1.items + (run isBefore ops).2 = (ops.map Op.inserted).sum := by
    induction ops using List.reverseRecOn with
    | nil => exact ⟨valid_empty isBefore, rfl⟩
    | append_singleton ops op ih =>
      obtain ⟨hv, hitems⟩ := step_keeps hw ih.1 op
      rw [run, List.foldl_append, List.map_append, List.sum_append, ← ih.2]
      exact ⟨hv, hitems.trans (congrArg _ (add_zero _).symm)⟩
  exact ⟨hkeeps.1, hkeeps.2, remove_first hw hkeeps.1⟩

omit hw in
theorem run_ordered_two : (run (fun a b : Nat => decide (a < b)) [.insert 2, .insert 1]).1.Valid
    (fun a b => decide (a < b)) :=
  (run_ordered ⟨fun a b h => by simp at h ⊢; omega, fun a b c h h' => by simp at h h' ⊢; omega⟩ _).1

end Heap
