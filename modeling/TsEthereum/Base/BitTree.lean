-- SUMMARY: Binary trees whose leaves are reached by the bits of a key: finding a leaf, replacing it, and the paths to all leaves.
import Mathlib.Data.List.Basic
import Mathlib.Data.List.Flatten

/-!
# Trees of bits

An infinite sequence of bits leads to one leaf. Where what a leaf contains is placed
by its own bits, it is found in no other leaf.
-/

open List

inductive BitTree (α : Type) where
  | leaf (a : α)
  | inner (left right : BitTree α)

namespace BitTree

variable {α β : Type}

/-- The first `n` bits. -/
def bitsTo (bits : Nat → Bool) (n : Nat) : List Bool := (List.range n).map bits

/-- The leaf that the bits from `d` on lead to, with its depth. -/
def find : BitTree α → (Nat → Bool) → Nat → α × Nat
  | .leaf a, _, d => (a, d)
  | .inner left right, bits, d =>
    if bits d then find right bits (d + 1) else find left bits (d + 1)

/-- Another tree in the place of that leaf. -/
def replace : BitTree α → (Nat → Bool) → Nat → BitTree α → BitTree α
  | .leaf _, _, _, new => new
  | .inner left right, bits, d, new =>
    if bits d then .inner left (replace right bits (d + 1) new)
    else .inner (replace left bits (d + 1) new) right

/-- The leaves from the left to the right, with the paths to them. -/
def leaves : BitTree α → List Bool → List (List Bool × α)
  | .leaf a, path => [(path, a)]
  | .inner left right, path => leaves left (path ++ [false]) ++ leaves right (path ++ [true])

@[simp] theorem length_bitsTo (bits : Nat → Bool) (n : Nat) : (bitsTo bits n).length = n := by
  simp [bitsTo]

theorem bitsTo_succ (bits : Nat → Bool) (n : Nat) : bitsTo bits (n + 1) = bitsTo bits n ++ [bits n] := by
  simp [bitsTo, range_succ]

variable {bits : Nat → Bool}

theorem bitsTo_inj {bits' : Nat → Bool} {n : Nat} (h : bitsTo bits n = bitsTo bits' n) {i : Nat}
    (hi : i < n) : bits i = bits' i := by
  have hget := congrArg (fun l => l[i]?) h
  simpa [bitsTo, hi] using hget

theorem le_find (t : BitTree α) (bits : Nat → Bool) (d : Nat) : d ≤ (find t bits d).2 := by
  induction t generalizing d with
  | leaf a => exact Nat.le_refl d
  | inner left right ihl ihr =>
    unfold find
    split
    · exact Nat.le_of_succ_le (ihr (d + 1))
    · exact Nat.le_of_succ_le (ihl (d + 1))

/-- Replacing a leaf leaves the others as they are. -/
theorem leaves_replace (t : BitTree α) (bits : Nat → Bool) (d : Nat) :
    ∃ before after, leaves t (bitsTo bits d) =
        before ++ (bitsTo bits (find t bits d).2, (find t bits d).1) :: after ∧
      ∀ new, leaves (replace t bits d new) (bitsTo bits d) =
        before ++ leaves new (bitsTo bits (find t bits d).2) ++ after := by
  induction t generalizing d with
  | leaf a => exact ⟨[], [], rfl, fun new => by simp [replace, find]⟩
  | inner left right ihl ihr =>
    cases hbit : bits d with
    | false =>
      obtain ⟨before, after, hleaves, hreplace⟩ := ihl (d + 1)
      rw [bitsTo_succ, hbit] at hleaves hreplace
      refine ⟨before, after ++ leaves right (bitsTo bits d ++ [true]), ?_, fun new => ?_⟩
      · simp [leaves, find, hbit, hleaves]
      · simp [leaves, find, replace, hbit, hreplace]
    | true =>
      obtain ⟨before, after, hleaves, hreplace⟩ := ihr (d + 1)
      rw [bitsTo_succ, hbit] at hleaves hreplace
      refine ⟨leaves left (bitsTo bits d ++ [false]) ++ before, after, ?_, fun new => ?_⟩
      · simp [leaves, find, hbit, hleaves]
      · simp [leaves, find, replace, hbit, hreplace]

theorem find_mem_leaves (t : BitTree α) (bits : Nat → Bool) (d : Nat) :
    (bitsTo bits (find t bits d).2, (find t bits d).1) ∈ leaves t (bitsTo bits d) := by
  obtain ⟨before, after, hleaves, -⟩ := leaves_replace t bits d
  rw [hleaves]
  exact mem_append.mpr (.inr mem_cons_self)

variable {t : BitTree α} {p path : List Bool}

theorem prefix_of_mem_leaves {a : α} (h : (path, a) ∈ leaves t p) : p <+: path := by
  induction t generalizing p with
  | leaf b =>
    obtain ⟨rfl, -⟩ := Prod.mk.inj (mem_singleton.mp h)
    exact prefix_refl _
  | inner left right ihl ihr =>
    rcases mem_append.mp h with h | h
    · exact (prefix_append p _).trans (ihl h)
    · exact (prefix_append p _).trans (ihr h)

theorem bit_of_path {b : Bool} (h : p ++ [b] <+: path) (hpath : path = bitsTo bits path.length) :
    bits p.length = b := by
  obtain ⟨rest, rfl⟩ := h
  have hget := congrArg (fun l => l[p.length]?) hpath
  simp [bitsTo] at hget
  exact hget.symm

/-- Bits that begin with the path to a leaf lead to it. -/
theorem find_of_mem_leaves {d : Nat} {a : α} (h : (path, a) ∈ leaves t (bitsTo bits d))
    (hpath : path = bitsTo bits path.length) : find t bits d = (a, path.length) := by
  induction t generalizing d with
  | leaf b =>
    obtain ⟨hp, rfl⟩ := Prod.mk.inj (mem_singleton.mp h)
    rw [hp, length_bitsTo]
    rfl
  | inner left right ihl ihr =>
    unfold find
    rcases mem_append.mp h with h | h
    · have hbit := bit_of_path (prefix_of_mem_leaves h) hpath
      rw [length_bitsTo] at hbit
      rw [hbit, if_neg Bool.false_ne_true]
      refine ihl ?_
      rwa [bitsTo_succ, hbit]
    · have hbit := bit_of_path (prefix_of_mem_leaves h) hpath
      rw [length_bitsTo] at hbit
      rw [hbit, if_pos rfl]
      refine ihr ?_
      rwa [bitsTo_succ, hbit]

/-- What is related wherever bits differ is related across the leaves. -/
theorem pairwise_contents {content : α → List β} {bits : β → Nat → Bool} {R : β → β → Prop}
    (hR : ∀ x y i, bits x i ≠ bits y i → R x y)
    (hplaced : ∀ path a, (path, a) ∈ leaves t p → ∀ x ∈ content a,
      path = bitsTo (bits x) path.length)
    (hleaf : ∀ path a, (path, a) ∈ leaves t p → (content a).Pairwise R) :
    ((leaves t p).flatMap (fun e => content e.2)).Pairwise R := by
  induction t generalizing p with
  | leaf a =>
    simp only [leaves, flatMap_cons, flatMap_nil, append_nil]
    exact hleaf p a (mem_singleton_self _)
  | inner left right ihl ihr =>
    simp only [leaves, flatMap_append]
    rw [pairwise_append]
    have hl (path : List Bool) (a : α) (h : (path, a) ∈ leaves left (p ++ [false])) :=
      mem_append.mpr (Or.inl (b := (path, a) ∈ leaves right (p ++ [true])) h)
    have hr (path : List Bool) (a : α) (h : (path, a) ∈ leaves right (p ++ [true])) :=
      mem_append.mpr (Or.inr (a := (path, a) ∈ leaves left (p ++ [false])) h)
    refine ⟨ihl (fun path a h => hplaced path a (hl path a h)) (fun path a h => hleaf path a (hl path a h)),
      ihr (fun path a h => hplaced path a (hr path a h)) (fun path a h => hleaf path a (hr path a h)),
      fun x hx y hy => hR x y p.length ?_⟩
    obtain ⟨⟨path, a⟩, ha, hxa⟩ := mem_flatMap.mp hx
    obtain ⟨⟨path', a'⟩, ha', hya⟩ := mem_flatMap.mp hy
    rw [bit_of_path (prefix_of_mem_leaves ha) (hplaced path a (hl path a ha) x hxa),
      bit_of_path (prefix_of_mem_leaves ha') (hplaced path' a' (hr path' a' ha') y hya)]
    exact Bool.false_ne_true

end BitTree
