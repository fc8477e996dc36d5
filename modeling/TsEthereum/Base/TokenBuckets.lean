-- SUMMARY: Levels that are paced by a rate and a burst, and how much can be taken in an interval.
import Mathlib.Algebra.Order.Field.Basic
import Mathlib.Tactic.Linarith

/-!
# Token buckets

A level rises by no more than `rate` for each unit of time and never above `burst`.
Whatever is taken lowers it. In an interval no more can be taken than the burst and
what the rate gives meanwhile.
-/

namespace TokenBuckets

variable {K : Type} [Field K] [LinearOrder K] [IsStrictOrderedRing K]

/-- What is taken at a time, and the level that is left. -/
structure Reading (K : Type) where
  time : K
  taken : Nat
  level : K

/-- Readings of a level that is `level` at `time`. -/
inductive Paced (rate burst : K) : K → K → List (Reading K) → Prop
  | nil {time level : K} : Paced rate burst time level []
  | cons {time level : K} {x : Reading K} {xs : List (Reading K)} (htime : time ≤ x.time)
      (hpos : 0 ≤ x.level)
      (hlevel : x.level + x.taken ≤ min burst (level + rate * (x.time - time)))
      (hrest : Paced rate burst x.time x.level xs) : Paced rate burst time level (x :: xs)

/-- What is taken from `start` to `stop`. -/
def takenIn (start stop : K) : List (Reading K) → Nat
  | [] => 0
  | x :: xs => (if start ≤ x.time ∧ x.time ≤ stop then x.taken else 0) + takenIn start stop xs

variable {rate burst time level start stop : K} {xs : List (Reading K)}

/-- Nothing is lost if the level was reached earlier. -/
theorem Paced.earlier (h : Paced rate burst time level xs) (hrate : 0 ≤ rate) {time' : K}
    (hle : time' ≤ time) : Paced rate burst time' level xs := by
  cases h with
  | nil => exact .nil
  | cons htime hpos hlevel hrest =>
    refine .cons (hle.trans htime) hpos (hlevel.trans (min_le_min_left _ ?_)) hrest
    exact add_le_add_right (mul_le_mul_of_nonneg_left (sub_le_sub_left hle _) hrate) _

omit [IsStrictOrderedRing K] in
theorem Paced.takenIn_of_lt (h : Paced rate burst time level xs) (hlt : stop < time) :
    takenIn start stop xs = 0 := by
  induction h with
  | nil => rfl
  | cons htime hpos hlevel hrest ih =>
    have hlate := hlt.trans_le htime
    rw [takenIn, if_neg fun h => absurd h.2 (not_le.mpr hlate), ih hlate]

variable (h : Paced rate burst time level xs)
include h

/-- From a time in the interval on, no more is taken than the level and what the rate gives. -/
theorem Paced.takenIn_le_level (hrate : 0 ≤ rate)
    (hlevel : 0 ≤ level) (hstart : start ≤ time) (hstop : time ≤ stop) :
    (takenIn start stop xs : K) ≤ level + rate * (stop - time) := by
  induction h with
  | nil =>
    rw [takenIn, Nat.cast_zero]
    exact add_nonneg hlevel (mul_nonneg hrate (sub_nonneg.mpr hstop))
  | @cons time level x xs htime hpos hle hrest ih =>
    have hrise := hle.trans (min_le_right _ _)
    rcases le_or_gt x.time stop with hin | hlate
    · have hlater := ih hpos (hstart.trans htime) hin
      rw [takenIn, if_pos ⟨hstart.trans htime, hin⟩, Nat.cast_add]
      linarith [mul_sub rate stop time, mul_sub rate x.time time, mul_sub rate stop x.time]
    · rw [takenIn, if_neg fun h => absurd h.2 (not_le.mpr hlate), hrest.takenIn_of_lt hlate,
        Nat.cast_zero]
      exact add_nonneg hlevel (mul_nonneg hrate (sub_nonneg.mpr hstop))

/-- The bound of a token bucket. -/
theorem Paced.takenIn_le (hrate : 0 ≤ rate)
    (hburst : 0 ≤ burst) (htime : time ≤ start) (hle : start ≤ stop) :
    (takenIn start stop xs : K) ≤ burst + rate * (stop - start) := by
  have hnone : (0 : K) ≤ burst + rate * (stop - start) :=
    add_nonneg hburst (mul_nonneg hrate (sub_nonneg.mpr hle))
  induction h with
  | nil =>
    rw [takenIn, Nat.cast_zero]
    exact hnone
  | @cons time level x xs _ hpos hlevel hrest ih =>
    have hcap := hlevel.trans (min_le_left _ _)
    rcases lt_or_ge x.time start with hearly | hin
    · rw [takenIn, if_neg fun h => absurd h.1 (not_le.mpr hearly), Nat.zero_add]
      exact ih hearly.le
    · rcases le_or_gt x.time stop with hbefore | hlate
      · -- the first reading of the interval
        have hlater := hrest.takenIn_le_level hrate hpos hin hbefore
        have hmore := mul_le_mul_of_nonneg_left (sub_le_sub_left hin stop) hrate
        rw [takenIn, if_pos ⟨hin, hbefore⟩, Nat.cast_add]
        linarith
      · rw [takenIn, if_neg fun h => absurd h.2 (not_le.mpr hlate), hrest.takenIn_of_lt hlate,
          Nat.cast_zero]
        exact hnone

end TokenBuckets
