-- SUMMARY: Heap order on 1-based implicit binary trees: what a sift needs off its hole, and what an ordered tree says of its root.
import Mathlib.Data.Finset.Interval
import Mathlib.Order.Interval.Finset.Nat
import Mathlib.Logic.Equiv.Basic

/-!
# Implicit binary heaps

A complete binary tree packed into the positions `1..n` of a sequence: the
parent of `i` is `i / 2`, its children are `2 * i` and `2 * i + 1`. The order is
a strict weak order given as a Boolean relation `before`; nothing here depends on
how a sift is programmed.
-/

open Function Finset

namespace ImplicitHeap

variable {α : Type*}

/-- `before` is a strict weak order: asymmetric, and "not before" is transitive. -/
structure StrictWeak (before : α → α → Bool) : Prop where
  asymm : ∀ a b, before a b = true → before b a = false
  negTrans : ∀ a b c, before b a = false → before c b = false → before c a = false

namespace StrictWeak

variable {before : α → α → Bool}

theorem irrefl (h : StrictWeak before) (a : α) : before a a = false := by
  cases hb : before a a with
  | false => rfl
  | true => simpa [hb] using h.asymm a a hb

/-- An element that is not before `b` is not before anything `b` comes after. -/
theorem not_before_of_before (h : StrictWeak before) {a b c : α}
    (hab : before a b = true) (hcb : before c b = false) : before c a = false :=
  h.negTrans a b c (h.asymm a b hab) hcb

end StrictWeak

/-- Every position of `1..n` other than the root is not before its parent. -/
def Ordered (before : α → α → Bool) (f : Nat → α) (n : Nat) : Prop :=
  ∀ i, 2 ≤ i → i ≤ n → before (f i) (f (i / 2)) = false

/-- The multiset of the elements at the positions `1..n`. -/
def contents (f : Nat → α) (n : Nat) : Multiset α :=
  (Finset.Icc 1 n).val.map f

/-! ## Contents -/

theorem contents_succ (f : Nat → α) (n : Nat) :
    contents f (n + 1) = f (n + 1) ::ₘ contents f n := by
  have hicc : Finset.Icc 1 (n + 1) = insert (n + 1) (Finset.Icc 1 n) := by
    ext i
    simp only [mem_Icc, mem_insert]
    omega
  have hnot : n + 1 ∉ Finset.Icc 1 n := by simp
  rw [contents, hicc, insert_val_of_notMem hnot, Multiset.map_cons, contents]

variable {f : Nat → α} {n : Nat}

theorem contents_congr {g : Nat → α} (h : ∀ i, 1 ≤ i → i ≤ n → f i = g i) :
    contents f n = contents g n := by
  apply Multiset.map_congr rfl
  intro i hi
  rw [mem_val, mem_Icc] at hi
  exact h i hi.1 hi.2

@[simp] theorem mem_contents {a : α} : a ∈ contents f n ↔ ∃ i, 1 ≤ i ∧ i ≤ n ∧ f i = a := by
  simp only [contents, Multiset.mem_map, mem_val, mem_Icc, and_assoc]

@[simp] theorem card_contents (f : Nat → α) (n : Nat) : (contents f n).card = n := by
  simp [contents]

variable {i : Nat}

/-- Exchanging two positions of the tree does not change what it holds. -/
theorem contents_swap (f : Nat → α) {j : Nat} (hi : 1 ≤ i ∧ i ≤ n) (hj : 1 ≤ j ∧ j ≤ n) :
    contents (f ∘ Equiv.swap i j) n = contents f n := by
  have hmap : (Finset.Icc 1 n).map (Equiv.swap i j).toEmbedding = Finset.Icc 1 n := by
    apply map_perm
    intro a ha
    rw [mem_coe, mem_Icc]
    by_contra hout
    have hai : a ≠ i := by rintro rfl; exact hout hi
    have haj : a ≠ j := by rintro rfl; exact hout hj
    exact ha (Equiv.swap_apply_of_ne_of_ne hai haj)
  have hval := congrArg Finset.val hmap
  rw [map_val] at hval
  calc contents (f ∘ Equiv.swap i j) n
      = ((Finset.Icc 1 n).val.map (Equiv.swap i j).toEmbedding).map f := by
        rw [contents, Multiset.map_map]; rfl
    _ = contents f n := by rw [hval]; rfl

/-- Moving the element at `j` into the hole `i` moves the hole: what the tree
holds with `x` in the hole stays the same. -/
theorem contents_move_hole (f : Nat → α) (x : α) {j : Nat} (hij : i ≠ j) (hi : 1 ≤ i ∧ i ≤ n)
    (hj : 1 ≤ j ∧ j ≤ n) : contents (Function.update (Function.update f i (f j)) j x) n =
      contents (Function.update f i x) n := by
  rw [← contents_swap (Function.update f i x) hi hj]
  congr 1
  funext k
  by_cases hkj : k = j
  · subst hkj
    simp [Equiv.swap_apply_right]
  · by_cases hki : k = i
    · subst hki
      simp [hij, update_of_ne (Ne.symm hij)]
    · simp [hki, hkj, Equiv.swap_apply_of_ne_of_ne hki hkj]

/-- Taking the root out and putting the last element into its place. -/
theorem contents_take_root (f : Nat → α) (n : Nat) :
    contents f (n + 1) = f 1 ::ₘ contents (Function.update f 1 (f (n + 1))) n := by
  have hswap := contents_swap f (n := n + 1) (i := 1) (j := n + 1) (by omega) (by omega)
  rw [← hswap, contents_succ]
  congr 1
  · simp
  · apply contents_congr
    intro i hi1 hin
    by_cases h1 : i = 1
    · subst h1; simp
    · have hlast : i ≠ n + 1 := by omega
      simp [h1, Equiv.swap_apply_of_ne_of_ne h1 hlast]

/-! ## The root -/

/-- No element of an ordered tree is before its root. -/
theorem Ordered.root_first {before : α → α → Bool} (hw : StrictWeak before)
    (ho : Ordered before f n) (h1 : 1 ≤ i) (hn : i ≤ n) : before (f i) (f 1) = false := by
  induction i using Nat.strongRecOn with
  | ind i ih =>
    by_cases hi : i = 1
    · subst hi; exact hw.irrefl _
    · have hparent : before (f (i / 2)) (f 1) = false := ih (i / 2) (by omega) (by omega) (by omega)
      exact hw.negTrans _ _ _ hparent (ho i (by omega) hn)

/-! ## Holes

A sift carries one element `x` and a hole. It moves elements into the hole until
`x` fits, and then places it there. -/

/-- The pairs of parent and child that do not touch the hole are in order, and so
are the children of the hole against its parent. -/
structure OrderedOff (before : α → α → Bool) (f : Nat → α) (n hole : Nat) : Prop where
  off : ∀ i, 2 ≤ i → i ≤ n → i ≠ hole → i / 2 ≠ hole → before (f i) (f (i / 2)) = false
  grand : 2 ≤ hole → ∀ i, 2 ≤ i → i ≤ n → i / 2 = hole → before (f i) (f (hole / 2)) = false

variable {hole : Nat}

/-- Placing `x` in the hole orders the tree when `x` fits both its neighbourhoods. -/
theorem OrderedOff.place {before : α → α → Bool} {x : α} (ho : OrderedOff before f n hole)
    (habove : 2 ≤ hole → before x (f (hole / 2)) = false)
    (hbelow : ∀ i, 2 ≤ i → i ≤ n → i / 2 = hole → before (f i) x = false) :
    Ordered before (Function.update f hole x) n := by
  intro i hi hn
  by_cases hih : i = hole
  · subst hih
    have hne : i / 2 ≠ i := by omega
    rw [update_self, update_of_ne hne]
    exact habove hi
  · rw [update_of_ne hih]
    by_cases hph : i / 2 = hole
    · rw [hph, update_self]
      exact hbelow i hi hn hph
    · rw [update_of_ne hph]
      exact ho.off i hi hn hih hph

/-- An ordered tree is ordered off any hole. -/
theorem Ordered.off_hole {before : α → α → Bool} (hw : StrictWeak before) (ho : Ordered before f n)
    (hn : hole ≤ n) : OrderedOff before f n hole where
  off := fun i hi hin _ _ => ho i hi hin
  grand := by
    intro hh i hi hin hparent
    have hup : before (f hole) (f (hole / 2)) = false := ho hole hh hn
    have hdown : before (f i) (f hole) = false := by rw [← hparent]; exact ho i hi hin
    exact hw.negTrans _ _ _ hup hdown

/-- A new last position is a hole no pair off it touches. -/
theorem Ordered.append_hole {before : α → α → Bool} (ho : Ordered before f n) :
    OrderedOff before f (n + 1) (n + 1) where
  off := fun i hi hin hne _ => ho i hi (by omega)
  grand := by
    intro _ i _ hin hparent
    omega

/-- Moving the parent of the hole down moves the hole up. `x` is not after any
child of the old hole because the parent is not, and `x` comes before the parent. -/
theorem OrderedOff.up {before : α → α → Bool} (hw : StrictWeak before) {x : α}
    (ho : OrderedOff before f n hole) (hh : 2 ≤ hole) (hn : hole ≤ n)
    (hx : before x (f (hole / 2)) = true) :
    OrderedOff before (Function.update f hole (f (hole / 2))) n (hole / 2) ∧
      ∀ i, 2 ≤ i → i ≤ n → i / 2 = hole / 2 →
        before (Function.update f hole (f (hole / 2)) i) x = false := by
  have hparentUp : 2 ≤ hole / 2 → before (f (hole / 2)) (f (hole / 2 / 2)) = false := fun h2 =>
    ho.off (hole / 2) h2 (by omega) (by omega) (by omega)
  have hsibling : ∀ i, 2 ≤ i → i ≤ n → i / 2 = hole / 2 → i ≠ hole →
      before (f i) (f (hole / 2)) = false := by
    intro i hi hin hp hne
    have := ho.off i hi hin hne (by omega)
    rwa [hp] at this
  refine ⟨⟨?_, ?_⟩, ?_⟩
  · intro i hi hin hne hpne
    have hih : i ≠ hole := by rintro rfl; exact hpne rfl
    rw [update_of_ne hih]
    by_cases hph : i / 2 = hole
    · rw [hph, update_self]
      exact ho.grand hh i hi hin hph
    · rw [update_of_ne hph]
      exact ho.off i hi hin hih hph
  · intro h2 i hi hin hp
    have hgne : hole / 2 / 2 ≠ hole := by omega
    rw [update_of_ne hgne]
    by_cases hih : i = hole
    · subst hih
      rw [update_self]
      exact hparentUp h2
    · rw [update_of_ne hih]
      exact hw.negTrans _ _ _ (hparentUp h2) (hsibling i hi hin hp hih)
  · intro i hi hin hp
    by_cases hih : i = hole
    · subst hih
      rw [update_self]
      exact hw.asymm _ _ hx
    · rw [update_of_ne hih]
      exact hw.not_before_of_before hx (hsibling i hi hin hp hih)

/-- Moving the first of the children of the hole up moves the hole down. -/
theorem OrderedOff.down {before : α → α → Bool} {c : Nat} (ho : OrderedOff before f n hole)
    (hh : 1 ≤ hole) (hc : c / 2 = hole) (hcn : c ≤ n)
    (hfirst : ∀ i, 2 ≤ i → i ≤ n → i / 2 = hole → before (f i) (f c) = false) :
    OrderedOff before (Function.update f hole (f c)) n c := by
  refine ⟨?_, ?_⟩
  · intro i hi hin hne hpne
    by_cases hih : i = hole
    · subst hih
      have hpi : i / 2 ≠ i := by omega
      rw [update_self, update_of_ne hpi]
      exact ho.grand hi c (by omega) hcn hc
    · rw [update_of_ne hih]
      by_cases hph : i / 2 = hole
      · rw [hph, update_self]
        exact hfirst i hi hin hph
      · rw [update_of_ne hph]
        exact ho.off i hi hin hih hph
  · intro h2 i hi hin hp
    have hih : i ≠ hole := by omega
    rw [hc, update_self, update_of_ne hih]
    have := ho.off i hi hin hih (by omega)
    rwa [hp] at this

end ImplicitHeap
