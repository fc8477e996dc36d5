-- SUMMARY: Votes on who belongs to a group: latest ballots, majorities, and lists of ballots that a count does not tell apart.
import Mathlib.Data.Finset.Card
import Mathlib.Data.Finset.Filter
import Mathlib.Data.Finset.Insert
import Mathlib.Data.Finset.Dedup

/-!
# Ballots

The members of a group vote on who joins and who leaves. A later ballot of a voter about
the same person replaces the earlier one. A decision needs more than half of the members,
and the ballots about the person are void afterwards; those of a person who leaves are void too.
-/

open List Finset

variable {α κ : Type} [DecidableEq α] [DecidableEq κ]

structure Ballot (α κ : Type) where
  voter : α
  about : α
  choice : κ

namespace Ballot

/-! ## Latest ballots -/

omit [DecidableEq κ] in
/-- The choice that counts. -/
def latest (ballots : List (Ballot α κ)) (voter about : α) : Option κ :=
  (ballots.filter fun v => v.voter = voter ∧ v.about = about).getLast?.map Ballot.choice

omit [DecidableEq κ] in
theorem latest_append (ballots : List (Ballot α κ)) (v : Ballot α κ) (voter about : α) :
    latest (ballots ++ [v]) voter about =
      if v.voter = voter ∧ v.about = about then some v.choice else latest ballots voter about := by
  unfold latest
  rw [filter_append]
  split
  · rename_i h
    simp [h]
  · rename_i h
    simp [h]

variable {ballots : List (Ballot α κ)} {voter about : α}

omit [DecidableEq κ] in
theorem latest_filter {p : Ballot α κ → Bool}
    (h : ∀ v ∈ ballots, v.voter = voter → v.about = about → p v = true) :
    latest (ballots.filter p) voter about = latest ballots voter about := by
  unfold latest
  rw [List.filter_filter]
  congr 2
  apply List.filter_congr
  intro v hv
  rw [Bool.and_eq_left_iff_imp]
  intro hmatch
  obtain ⟨hvoter, habout⟩ := of_decide_eq_true hmatch
  exact h v hv hvoter habout

omit [DecidableEq κ] in
theorem latest_eq_none (h : ∀ v ∈ ballots, v.voter = voter → v.about ≠ about) :
    latest ballots voter about = none := by
  have hnil : ballots.filter (fun v => v.voter = voter ∧ v.about = about) = [] :=
    filter_eq_nil_iff.mpr fun v hv hmatch =>
      h v hv (of_decide_eq_true hmatch).1 (of_decide_eq_true hmatch).2
  unfold latest
  rw [hnil]
  rfl

omit [DecidableEq κ] in
theorem mem_of_latest {choice : κ} (h : latest ballots voter about = some choice) :
    ⟨voter, about, choice⟩ ∈ ballots := by
  obtain ⟨v, hlast, rfl⟩ := Option.map_eq_some_iff.mp h
  obtain ⟨hmem, hmatch⟩ := mem_filter.mp (mem_of_getLast? hlast)
  obtain ⟨rfl, rfl⟩ := of_decide_eq_true hmatch
  exact hmem

/-! ## Counts -/

/-- The voters other than `voter` with some ballot of that choice, be it the latest or not. -/
def recorded (ballots : List (Ballot α κ)) (voter about : α) (choice : κ) : Finset α :=
  ((ballots.filter fun v => v.about = about ∧ v.choice = choice ∧ v.voter ≠ voter).map
    Ballot.voter).toFinset

/-- The members other than `voter` whose latest ballot has that choice. -/
def standing (members : Finset α) (ballots : List (Ballot α κ)) (voter about : α) (choice : κ) :
    Finset α :=
  members.filter fun a => a ≠ voter ∧ latest ballots a about = some choice

theorem mem_recorded {a : α} {choice : κ} :
    a ∈ recorded ballots voter about choice ↔ ⟨a, about, choice⟩ ∈ ballots ∧ a ≠ voter := by
  simp only [recorded, List.mem_toFinset, List.mem_map, List.mem_filter, decide_eq_true_eq]
  constructor
  · rintro ⟨v, ⟨hmem, rfl, rfl, hvoter⟩, rfl⟩
    exact ⟨hmem, hvoter⟩
  · intro ⟨hmem, hvoter⟩
    exact ⟨_, ⟨hmem, rfl, rfl, hvoter⟩, rfl⟩

theorem standing_subset_recorded (members : Finset α) (ballots : List (Ballot α κ)) (voter about : α)
    (choice : κ) : standing members ballots voter about choice ⊆ recorded ballots voter about choice := by
  intro a ha
  obtain ⟨-, hvoter, hlatest⟩ := mem_filter.mp ha
  exact mem_recorded.mpr ⟨mem_of_latest hlatest, hvoter⟩

end Ballot

/-! ## Electorates -/

structure Electorate (α κ : Type) where
  members : Finset α
  ballots : List (Ballot α κ)

namespace Electorate

open Ballot

section

variable (joins leaves : κ)

omit [DecidableEq κ] in
/-- The choice that can change the standing of a person. -/
def effective (members : Finset α) (about : α) : κ := if about ∈ members then leaves else joins

/-- The members whose latest ballot about a person has that choice. -/
def support (e : Electorate α κ) (about : α) (choice : κ) : Finset α :=
  e.members.filter fun a => latest e.ballots a about = some choice

omit [DecidableEq κ] in
/-- The person changes sides. -/
def decided (e : Electorate α κ) (about : α) : Electorate α κ :=
  if about ∈ e.members then
    ⟨e.members.erase about, e.ballots.filter fun v => v.voter ≠ about ∧ v.about ≠ about⟩
  else ⟨insert about e.members, e.ballots.filter fun v => v.about ≠ about⟩

/-- A member votes. Only the person that the ballot is about can change sides. -/
def cast (e : Electorate α κ) (v : Ballot α κ) : Electorate α κ :=
  let voted : Electorate α κ := ⟨e.members, e.ballots ++ [v]⟩
  if e.members.card < 2 * (voted.support v.about (effective joins leaves e.members v.about)).card then
    voted.decided v.about
  else voted

end

/-- What a ballot does to its count: the others whose ballots stand, and the voter. -/
theorem card_support_cast {e : Electorate α κ} {v : Ballot α κ} (hv : v.voter ∈ e.members)
    (choice : κ) :
    (support ⟨e.members, e.ballots ++ [v]⟩ v.about choice).card =
      (standing e.members e.ballots v.voter v.about choice).card +
        if v.choice = choice then 1 else 0 := by
  have hmem (a : α) : a ∈ support ⟨e.members, e.ballots ++ [v]⟩ v.about choice ↔
      (a = v.voter ∧ v.choice = choice) ∨ a ∈ standing e.members e.ballots v.voter v.about choice := by
    simp only [support, standing, Finset.mem_filter, latest_append]
    by_cases ha : v.voter = a
    · subst ha
      simp [hv]
    · simp [ha, Ne.symm ha]
  have hnot : v.voter ∉ standing e.members e.ballots v.voter v.about choice :=
    fun h => (Finset.mem_filter.mp h).2.1 rfl
  split
  · rename_i hchoice
    rw [← Finset.card_insert_of_notMem hnot]
    congr 1
    ext a
    rw [hmem, Finset.mem_insert]
    simp [hchoice]
  · rename_i hchoice
    rw [Nat.add_zero]
    congr 1
    ext a
    rw [hmem]
    simp [hchoice]

end Electorate

/-! ## Lists that count alike -/

section Alike

open Ballot Electorate

variable {joins leaves : κ} {members : Finset α} {l l' : List (Ballot α κ)}

omit [DecidableEq κ] in
/-- The two lists have the same ballots standing that can change someone's side. -/
def Alike (joins leaves : κ) (members : Finset α) (l l' : List (Ballot α κ)) : Prop :=
  ∀ a ∈ members, ∀ b, latest l a b = some (effective joins leaves members b) ↔
    latest l' a b = some (effective joins leaves members b)

namespace Alike

theorem standing_eq (h : Alike joins leaves members l l') (voter about : α) :
    standing members l voter about (effective joins leaves members about) =
      standing members l' voter about (effective joins leaves members about) := by
  apply Finset.filter_congr
  intro a ha
  rw [h a ha about]

omit [DecidableEq κ] in
theorem append (h : Alike joins leaves members l l') (v : Ballot α κ) :
    Alike joins leaves members (l ++ [v]) (l' ++ [v]) := by
  intro a ha b
  rw [latest_append, latest_append]
  split
  · exact Iff.rfl
  · exact h a ha b

omit [DecidableEq κ] in
/-- A ballot that cannot change a side, in a place where the first list has none. -/
theorem append_left (h : Alike joins leaves members l l') {v : Ballot α κ}
    (hv : v.voter ∈ members → v.choice ≠ effective joins leaves members v.about)
    (hnone : latest l v.voter v.about = none) : Alike joins leaves members (l ++ [v]) l' := by
  intro a ha b
  rw [latest_append, ← h a ha b]
  split
  · rename_i hmatch
    obtain ⟨rfl, rfl⟩ := hmatch
    rw [hnone]
    exact ⟨fun heq => (hv ha (Option.some.inj heq)).elim, nofun⟩
  · exact Iff.rfl

omit [DecidableEq κ] in
/-- After the decision to take `about` in. -/
theorem join (h : Alike joins leaves members l l') {about : α}
    (hown : ∀ v ∈ l, v.voter = about → v.about = about) (hnone : ∀ v ∈ l', v.voter ≠ about) :
    Alike joins leaves (insert about members) (l.filter fun v => v.about ≠ about)
      (l'.filter fun v => v.about ≠ about) := by
  intro a ha b
  by_cases hb : b = about
  · have hgone (l : List (Ballot α κ)) : latest (l.filter fun v => v.about ≠ about) a b = none :=
      latest_eq_none fun v hv _ hvb => of_decide_eq_true (mem_filter.mp hv).2 (hvb.trans hb)
    rw [hgone, hgone]
  · have hkeep (l : List (Ballot α κ)) :
        latest (l.filter fun v => v.about ≠ about) a b = latest l a b :=
      latest_filter fun v _ _ hvb => decide_eq_true fun h => hb (hvb.symm.trans h)
    have heffective : effective joins leaves (insert about members) b =
        effective joins leaves members b := by
      simp [effective, hb]
    rw [hkeep, hkeep, heffective]
    cases mem_insert.mp ha with
    | inr ha => exact h a ha b
    | inl ha =>
      -- the one who joins has no ballots about others
      rw [latest_eq_none fun v hv hva hvb => hb (hvb.symm.trans (hown v hv (hva.trans ha))),
        latest_eq_none fun v hv hva _ => hnone v hv (hva.trans ha)]

omit [DecidableEq κ] in
/-- After the decision to send `about` away. -/
theorem leave (h : Alike joins leaves members l l') (about : α) :
    Alike joins leaves (members.erase about) (l.filter fun v => v.voter ≠ about ∧ v.about ≠ about)
      (l'.filter fun v => v.voter ≠ about ∧ v.about ≠ about) := by
  intro a ha b
  obtain ⟨hne, ha⟩ := Finset.mem_erase.mp ha
  by_cases hb : b = about
  · have hgone (l : List (Ballot α κ)) :
        latest (l.filter fun v => v.voter ≠ about ∧ v.about ≠ about) a b = none :=
      latest_eq_none fun v hv _ hvb =>
        (of_decide_eq_true (mem_filter.mp hv).2).2 (hvb.trans hb)
    rw [hgone, hgone]
  · have hkeep (l : List (Ballot α κ)) :
        latest (l.filter fun v => v.voter ≠ about ∧ v.about ≠ about) a b = latest l a b :=
      latest_filter fun v _ hva hvb =>
        decide_eq_true ⟨fun h => hne (hva.symm.trans h), fun h => hb (hvb.symm.trans h)⟩
    have heffective : effective joins leaves (members.erase about) b =
        effective joins leaves members b := by
      simp [effective, hb]
    rw [hkeep, hkeep, heffective]
    exact h a ha b

end Alike

end Alike
