-- SUMMARY: Regular expressions with backtracking: all ways to match in the order in which they are tried, tests, and replacement of the first match.
import Mathlib.Data.List.Flatten
import Mathlib.Tactic.ByContra

/-!
# Regular expressions

A match is a way from one place of a text to a later one. The ways are listed in the
order in which a backtracking matcher tries them, so the first one is the match. An
optional repetition that consumes nothing is rejected, as in the language of the source.
-/

open List Nat

inductive Regex where
  | empty
  | char (p : Char → Bool)
  | start
  | stop
  | seq (a b : Regex)
  | alt (a b : Regex)
  /-- At most `n` times, greedily. -/
  | upTo (n : Nat) (r : Regex)
  | many (r : Regex)
  | group (i : Nat) (r : Regex)

namespace Regex

/-- A place in a text, with what the groups have captured on the way. -/
structure Place where
  atStart : Bool
  rest : List Char
  groups : List (Nat × List Char)

/-- What group `i` has captured, the empty text if it has not matched. -/
def Place.captured (p : Place) (i : Nat) : List Char :=
  ((p.groups.find? (fun g => g.1 = i)).map Prod.snd).getD []

def iterate (f : Place → List Place) : Nat → Place → List Place
  | 0, p => [p]
  | n + 1, p => ((f p).filter (fun q => q.rest.length < p.rest.length)).flatMap (iterate f n) ++ [p]

def ways : Regex → Place → List Place
  | .empty, p => [p]
  | .char c, p =>
    match p.rest with
    | [] => []
    | x :: rest => if c x then [⟨false, rest, p.groups⟩] else []
  | .start, p => if p.atStart then [p] else []
  | .stop, p => if p.rest = [] then [p] else []
  | .seq a b, p => (ways a p).flatMap (ways b)
  | .alt a b, p => ways a p ++ ways b p
  | .upTo n r, p => iterate (ways r) n p
  | .many r, p => iterate (ways r) p.rest.length p
  | .group i r, p => (ways r p).map (fun q =>
      { q with groups := (i, p.rest.take (p.rest.length - q.rest.length)) :: q.groups })

/-! ## Derived forms -/

def lit (c : Char) : Regex := .char (fun x => x = c)

def times : Nat → Regex → Regex
  | 0, _ => .empty
  | n + 1, r => .seq r (times n r)

/-- At least `m` and at most `n` times. -/
def between (m n : Nat) (r : Regex) : Regex := .seq (times m r) (.upTo (n - m) r)

/-- The text in front of the first match, and the place behind it. -/
def firstMatch (r : Regex) (atStart : Bool) (s : List Char) : Option (List Char × Place) :=
  match ways r ⟨atStart, s, []⟩, s with
  | p :: _, _ => some ([], p)
  | [], [] => none
  | [], x :: s => (firstMatch r false s).map (fun m => (x :: m.1, m.2))

def test (r : Regex) (s : List Char) : Bool := (firstMatch r true s).isSome

def replace (r : Regex) (template : (Nat → List Char) → List Char) (s : List Char) : List Char :=
  match firstMatch r true s with
  | none => s
  | some (before, p) => before ++ template p.captured ++ p.rest

/-! ## What a way consumes -/

variable {f : Place → List Place} {n : Nat} {p q : Place}

theorem iterate_induct {motive : Place → Place → Prop} (refl : ∀ p, motive p p)
    (step : ∀ p q q', q ∈ f p → motive q q' → motive p q') (h : q ∈ iterate f n p) :
    motive p q := by
  induction n generalizing p with
  | zero => exact mem_singleton.mp h ▸ refl p
  | succ n ih =>
    rcases mem_append.mp h with h | h
    · obtain ⟨q', hq', hq⟩ := mem_flatMap.mp h
      exact step p q' q (mem_filter.mp hq').1 (ih hq)
    · exact mem_singleton.mp h ▸ refl p

variable {r : Regex}

/-- A way ends in a later part of the text. -/
theorem suffix_of_mem (h : q ∈ ways r p) : q.rest <:+ p.rest := by
  have hiter {r : Regex} (ih : ∀ {p q}, q ∈ ways r p → q.rest <:+ p.rest) {n : Nat} {p q : Place}
      (h : q ∈ iterate (ways r) n p) : q.rest <:+ p.rest :=
    iterate_induct (motive := fun p q => q.rest <:+ p.rest) (fun p => suffix_refl _)
      (fun p q q' hq hq' => hq'.trans (ih hq)) h
  induction r generalizing p q with
  | empty => exact mem_singleton.mp h ▸ suffix_refl _
  | start | stop =>
    simp only [ways] at h
    split at h
    · exact mem_singleton.mp h ▸ suffix_refl _
    · exact absurd h not_mem_nil
  | char c =>
    simp only [ways] at h
    split at h
    · exact absurd h not_mem_nil
    · rename_i x rest hrest
      split at h
      · obtain rfl := mem_singleton.mp h
        rw [hrest]
        exact suffix_cons x rest
      · exact absurd h not_mem_nil
  | seq a b iha ihb =>
    obtain ⟨q', hq', hq⟩ := mem_flatMap.mp h
    exact (ihb hq).trans (iha hq')
  | alt a b iha ihb => exact (mem_append.mp h).elim iha ihb
  | upTo n r ih => exact hiter ih h
  | many r ih => exact hiter ih h
  | group i r ih =>
    obtain ⟨q', hq', rfl⟩ := mem_map.mp h
    exact ih (p := p) (q := q') hq'

/-- Every way goes over the character `c`. -/
def Requires (c : Char) : Regex → Prop
  | .char p => ∀ x, p x = true → x = c
  | .seq a b => Requires c a ∨ Requires c b
  | .alt a b => Requires c a ∧ Requires c b
  | .group _ r => Requires c r
  | _ => False

variable {c : Char}

theorem mem_of_requires (hr : Requires c r) (h : q ∈ ways r p) : c ∈ p.rest := by
  induction r generalizing p q with
  | empty | start | stop | upTo | many => exact hr.elim
  | char d =>
    simp only [ways] at h
    split at h
    · exact absurd h not_mem_nil
    · rename_i x rest hrest
      split at h
      · rename_i hx
        rw [hrest, hr x hx]
        exact mem_cons_self
      · exact absurd h not_mem_nil
  | seq a b iha ihb =>
    obtain ⟨q', hq', hq⟩ := mem_flatMap.mp h
    rcases hr with hr | hr
    · exact iha hr hq'
    · exact (suffix_of_mem hq').mem (ihb hr hq)
  | alt a b iha ihb => exact (mem_append.mp h).elim (iha hr.1) (ihb hr.2)
  | group i r ih =>
    obtain ⟨q', hq', -⟩ := mem_map.mp h
    exact ih hr hq'

/-! ## Places that can be reached -/

theorem mem_iterate_self (f : Place → List Place) (n : Nat) (p : Place) : p ∈ iterate f n p := by
  cases n with
  | zero => exact mem_singleton_self p
  | succ n => exact mem_append_right _ (mem_singleton_self p)

theorem mem_iterate_succ {q' : Place} (h : q ∈ f p) (hlt : q.rest.length < p.rest.length)
    (hq' : q' ∈ iterate f n q) : q' ∈ iterate f (n + 1) p :=
  mem_append_left _
    (mem_flatMap.mpr ⟨q, mem_filter.mpr ⟨h, decide_eq_true hlt⟩, hq'⟩)

theorem mem_iterate_mono {m : Nat} (hmn : m ≤ n) (h : q ∈ iterate f m p) : q ∈ iterate f n p := by
  induction m generalizing n p with
  | zero => exact mem_singleton.mp h ▸ mem_iterate_self f n q
  | succ m ih =>
    obtain ⟨n, rfl⟩ := exists_eq_succ_of_ne_zero (Nat.ne_of_gt (zero_lt_of_lt hmn))
    rcases mem_append.mp h with h | h
    · obtain ⟨q', hq', hq⟩ := mem_flatMap.mp h
      obtain ⟨hmem, hlt⟩ := mem_filter.mp hq'
      exact mem_iterate_succ hmem (of_decide_eq_true hlt) (ih (le_of_succ_le_succ hmn) hq)
    · exact mem_singleton.mp h ▸ mem_iterate_self f (n + 1) q

theorem mem_ways_seq {a b : Regex} {q' : Place} (h : q ∈ ways a p) (h' : q' ∈ ways b q) :
    q' ∈ ways (.seq a b) p := mem_flatMap.mpr ⟨q, h, h'⟩

/-- A word of up to `n` characters of one kind. -/
theorem mem_ways_upTo {c : Char → Bool} {w rest : List Char} {g : List (Nat × List Char)}
    (hw : ∀ x ∈ w, c x = true) (hn : w.length ≤ n) (atStart : Bool) :
    ⟨atStart && w.isEmpty, rest, g⟩ ∈ ways (.upTo n (.char c)) ⟨atStart, w ++ rest, g⟩ := by
  induction w generalizing n atStart with
  | nil =>
    rw [isEmpty_nil, Bool.and_true]
    exact mem_iterate_self _ n _
  | cons x w ih =>
    obtain ⟨n, rfl⟩ := exists_eq_succ_of_ne_zero (Nat.ne_of_gt (zero_lt_of_lt hn))
    have hx : ⟨false, w ++ rest, g⟩ ∈ ways (.char c) ⟨atStart, x :: (w ++ rest), g⟩ := by
      simp [ways, hw x mem_cons_self]
    have hrest := ih (fun y hy => hw y (mem_cons_of_mem x hy)) (le_of_succ_le_succ hn) false
    rw [isEmpty_cons, Bool.and_false]
    rw [Bool.false_and] at hrest
    exact mem_iterate_succ hx (lt_succ_self _) hrest

variable {atStart : Bool} {s : List Char}

theorem firstMatch_of_mem (h : q ∈ ways r ⟨atStart, s, []⟩) :
    (firstMatch r atStart s).isSome = true := by
  unfold firstMatch
  split
  · rfl
  · rename_i hways
    exact absurd (hways ▸ h) not_mem_nil
  · rename_i hways
    exact absurd (hways ▸ h) not_mem_nil

/-- What matches at the beginning. -/
theorem test_of_mem (h : q ∈ ways r ⟨true, s, []⟩) : test r s = true := firstMatch_of_mem h

theorem firstMatch_skip {x : Char} (h : ways r ⟨atStart, x :: s, []⟩ = []) :
    firstMatch r atStart (x :: s) = (firstMatch r false s).map (fun m => (x :: m.1, m.2)) := by
  rw [firstMatch.eq_def, h]

theorem firstMatch_here (h : (ways r ⟨atStart, s, []⟩).head? = some p) :
    firstMatch r atStart s = some ([], p) := by
  obtain ⟨l, hl⟩ := List.head?_eq_some_iff.mp h
  rw [firstMatch.eq_def, hl]

theorem mem_of_firstMatch (hr : Requires c r) (h : (firstMatch r atStart s).isSome = true) :
    c ∈ s := by
  induction s generalizing atStart with
  | nil =>
    rw [firstMatch.eq_def] at h
    split at h
    · rename_i p l hways
      exact mem_of_requires (p := ⟨atStart, [], []⟩) hr (hways ▸ mem_cons_self)
    · cases h
    · rename_i heq
      cases heq
  | cons x s ih =>
    cases hways : ways r ⟨atStart, x :: s, []⟩ with
    | cons p l => exact mem_of_requires (p := ⟨atStart, x :: s, []⟩) hr (hways ▸ mem_cons_self)
    | nil =>
      rw [firstMatch_skip hways, Option.isSome_map] at h
      exact mem_cons_of_mem x (ih h)

/-- A text without a character that every way goes over does not match. -/
theorem test_eq_false (hr : Requires c r) (h : c ∉ s) : test r s = false := by
  cases htest : test r s with
  | false => rfl
  | true => exact absurd (mem_of_firstMatch hr htest) h

/-- The search goes on behind characters where nothing matches. -/
theorem firstMatch_skip_word {w : List Char}
    (h : ∀ c ∈ w, ∀ rest, ways r ⟨false, c :: rest, []⟩ = []) (rest : List Char) :
    firstMatch r false (w ++ rest) = (firstMatch r false rest).map (fun m => (w ++ m.1, m.2)) := by
  induction w with
  | nil => simp
  | cons c w ih =>
    have hrest := ih (fun c hc => h c (mem_cons_of_mem _ hc))
    rw [cons_append, firstMatch_skip (h c mem_cons_self _), hrest, Option.map_map]
    rfl

end Regex
