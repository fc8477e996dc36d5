-- SUMMARY: When the active signers of clique are the ones that the votes of the blocks call for.
import TsEthereum.Base.Ballots
import TsEthereum.Blockchain.Clique
import Mathlib.Data.List.Sort

/-!
# The signers of a clique chain

The reference keeps a set of signers and the votes since the last epoch transition, and lets
the beneficiary of a vote change sides when more than half of the signers have their latest
vote for it. The code counts every recorded vote of a kind, also one that its signer has
replaced, and counts votes that cannot change anything. `CountsAgree` says when such votes do
not decide.
-/

open List

namespace CliqueConsensus

open Ballot Electorate

/-! ## The reference -/

abbrev Reference := Electorate Address Bytes

def CliqueVote.ballot (vote : CliqueVote) : Ballot Address Bytes :=
  ⟨vote.signer, vote.beneficiary, vote.cliqueNonce⟩

/-- A block in the reference: an epoch transition voids all votes and casts none. -/
def Reference.append (config : CliqueConfig) (e : Reference) (header : BlockHeader) : Reference :=
  if cliqueIsEpochTransition config header then ⟨e.members, []⟩
  else if header.coinbase = Address.zero then e
  else e.cast CLIQUE_NONCE_AUTH CLIQUE_NONCE_DROP header.vote.ballot

/-! ## Recent votes -/

/-- The votes from block `start` on. -/
def recent (start : Nat) (votes : List CliqueVote) : List (Ballot Address Bytes) :=
  (votes.filter fun vote => start ≤ vote.blockNumber).map CliqueVote.ballot

variable {start : Nat} {votes : List CliqueVote}

theorem mem_recent {v : Ballot Address Bytes} :
    v ∈ recent start votes ↔ ∃ vote ∈ votes, start ≤ vote.blockNumber ∧ vote.ballot = v := by
  simp only [recent, mem_map, mem_filter, decide_eq_true_eq, and_assoc]

theorem recent_append {vote : CliqueVote} (h : start ≤ vote.blockNumber) (votes : List CliqueVote) :
    recent start (votes ++ [vote]) = recent start votes ++ [vote.ballot] := by
  simp [recent, h]

theorem recent_filter (start : Nat) (votes : List CliqueVote) (p : Ballot Address Bytes → Bool) :
    recent start (votes.filter fun vote => p vote.ballot) = (recent start votes).filter p := by
  unfold recent
  rw [filter_map, filter_filter, filter_filter]
  congr 2
  funext vote
  exact Bool.and_comm ..

/-- Votes are dropped from the history only when they are older. -/
theorem recent_trim {p : CliqueVote → Bool}
    (h : ∀ vote ∈ votes, start ≤ vote.blockNumber → p vote = true) :
    recent start (votes.filter p) = recent start votes := by
  unfold recent
  rw [filter_filter]
  congr 1
  apply filter_congr
  intro vote hvote
  rw [Bool.and_eq_left_iff_imp]
  exact fun hstart => h vote hvote (of_decide_eq_true hstart)

theorem recent_eq_nil (h : ∀ vote ∈ votes, vote.blockNumber < start) : recent start votes = [] := by
  have hnil : votes.filter (fun vote => start ≤ vote.blockNumber) = [] :=
    filter_eq_nil_iff.mpr fun vote hvote hstart =>
      Nat.not_lt.mpr (of_decide_eq_true hstart) (h vote hvote)
  rw [recent, hnil]
  rfl

/-! ## Counting -/

/-- The loop over the votes keeps each signer once. -/
theorem votersOf_spec (votes : List CliqueVote) :
    (votersOf votes).Nodup ∧ ∀ a, a ∈ votersOf votes ↔ ∃ vote ∈ votes, vote.signer = a := by
  suffices h : ∀ voters : List Address, voters.Nodup →
      (votes.foldl (fun voters vote => if (voters.filter (· = vote.signer)).length = 0 then
        voters ++ [vote.signer] else voters) voters).Nodup ∧
      ∀ a, a ∈ votes.foldl (fun voters vote => if (voters.filter (· = vote.signer)).length = 0 then
        voters ++ [vote.signer] else voters) voters ↔ a ∈ voters ∨ ∃ vote ∈ votes, vote.signer = a by
    obtain ⟨hnodup, hmem⟩ := h [] nodup_nil
    exact ⟨hnodup, fun a => (hmem a).trans (or_iff_right not_mem_nil)⟩
  induction votes with
  | nil =>
    intro voters hnodup
    exact ⟨hnodup, fun a => by simp⟩
  | cons vote votes ih =>
    intro voters hnodup
    have hcount : (voters.filter (· = vote.signer)).length = 0 ↔ vote.signer ∉ voters := by
      rw [length_eq_zero_iff, filter_eq_nil_iff]
      exact ⟨fun h hmem => h _ hmem (by simp), fun h a ha heq => h (of_decide_eq_true heq ▸ ha)⟩
    simp only [foldl_cons]
    split
    · rename_i hzero
      have hnew := hcount.mp hzero
      obtain ⟨hn, hm⟩ := ih (voters ++ [vote.signer])
        (List.Nodup.append hnodup (nodup_singleton _) (by simpa using hnew))
      refine ⟨hn, fun a => (hm a).trans ?_⟩
      simp only [mem_append, mem_cons, not_mem_nil, or_false, exists_eq_or_imp,
        or_assoc, eq_comm (a := a)]
    · rename_i hsome
      have hold : vote.signer ∈ voters := not_not.mp fun h => hsome (hcount.mpr h)
      obtain ⟨hn, hm⟩ := ih voters hnodup
      refine ⟨hn, fun a => (hm a).trans ?_⟩
      simp only [mem_cons, exists_eq_or_imp]
      constructor
      · exact fun h => h.imp_right .inr
      · rintro (h | rfl | h)
        · exact .inl h
        · exact .inl hold
        · exact .inr h

variable {config : CliqueConfig} {header : BlockHeader}

/-- The others' votes that a round counts. -/
def counted (config : CliqueConfig) (header : BlockHeader) (votes : List CliqueVote)
    (cliqueNonce : Bytes) : Finset Address :=
  recorded (recent (config.lastEpochBlockNumber header.number) votes) header.signer header.coinbase
    cliqueNonce

theorem length_beneficiaryVotes (cliqueNonce : Bytes) (s : State) :
    (beneficiaryVotes config header cliqueNonce s).length =
      (counted config header s.latestVotes cliqueNonce).card := by
  obtain ⟨hnodup, hmem⟩ := votersOf_spec (s.latestVotes.filter fun vote =>
    decide (config.lastEpochBlockNumber header.number ≤ vote.blockNumber) &&
      decide (vote.signer ≠ header.signer) && decide (vote.beneficiary = header.coinbase) &&
      decide (vote.cliqueNonce = cliqueNonce))
  unfold beneficiaryVotes
  rw [← toFinset_card_of_nodup hnodup]
  congr 1
  ext a
  rw [mem_toFinset, hmem, counted, mem_recorded, mem_recent]
  constructor
  · rintro ⟨vote, hvote, rfl⟩
    obtain ⟨hvote, htests⟩ := mem_filter.mp hvote
    simp only [Bool.and_eq_true, decide_eq_true_eq] at htests
    obtain ⟨⟨⟨hstart, hsigner⟩, hbeneficiary⟩, hnonce⟩ := htests
    exact ⟨⟨vote, hvote, hstart, by rw [CliqueVote.ballot, hbeneficiary, hnonce]⟩, hsigner⟩
  · rintro ⟨⟨vote, hvote, hstart, hballot⟩, hsigner⟩
    have habout : vote.beneficiary = header.coinbase := congrArg Ballot.about hballot
    have hchoice : vote.cliqueNonce = cliqueNonce := congrArg Ballot.choice hballot
    have hvoter : vote.signer = a := congrArg Ballot.voter hballot
    refine ⟨vote, mem_filter.mpr ⟨hvote, ?_⟩, hvoter⟩
    simp only [Bool.and_eq_true, decide_eq_true_eq]
    exact ⟨⟨⟨hstart, fun h => hsigner (hvoter.symm.trans h)⟩, habout⟩, hchoice⟩

/-- A vote of the signer itself is not among the others' votes. -/
theorem counted_append (votes : List CliqueVote) (cliqueNonce : Bytes) :
    counted config header (votes ++ [header.vote]) cliqueNonce =
      counted config header votes cliqueNonce := by
  have hstart : config.lastEpochBlockNumber header.number ≤ header.vote.blockNumber :=
    Nat.sub_le _ _
  unfold counted
  rw [recent_append hstart]
  ext a
  rw [mem_recorded, mem_recorded, mem_append, mem_singleton]
  constructor
  · rintro ⟨hold | hown, hne⟩
    · exact ⟨hold, hne⟩
    · exact (hne (congrArg Ballot.voter hown)).elim
  · exact fun h => ⟨.inl h.1, h.2⟩

/-- No votes for the beneficiary are left to be counted. -/
theorem counted_discarded {p : CliqueVote → Bool}
    (h : ∀ vote, p vote = true → vote.beneficiary ≠ header.coinbase) (cliqueNonce : Bytes) :
    counted config header (votes.filter p) cliqueNonce = ∅ := by
  apply Finset.eq_empty_of_forall_notMem
  intro a ha
  obtain ⟨hmem, -⟩ := mem_recorded.mp ha
  obtain ⟨vote, hvote, -, hballot⟩ := mem_recent.mp hmem
  exact h vote (mem_filter.mp hvote).2 (congrArg Ballot.about hballot)

/-! ## Rounds -/

/-- The kind of vote that can change the side of the beneficiary, and the other kind. -/
def usefulNonce (active : List Address) (beneficiary : Address) : Bytes :=
  if beneficiary ∈ active then CLIQUE_NONCE_DROP else CLIQUE_NONCE_AUTH

def uselessNonce (active : List Address) (beneficiary : Address) : Bytes :=
  if beneficiary ∈ active then CLIQUE_NONCE_AUTH else CLIQUE_NONCE_DROP

/-- The active signers after a consensus. -/
def changedSigners (active : List Address) (beneficiary : Address) : List Address :=
  if beneficiary ∈ active then active.filter (· ≠ beneficiary)
  else (active ++ [beneficiary]).insertionSort (fun a b => a.value ≤ b.value)

/-- The votes that stay after a consensus. -/
def keptVotes (active : List Address) (beneficiary : Address) (votes : List CliqueVote) :
    List CliqueVote :=
  if beneficiary ∈ active then
    votes.filter fun vote => decide (vote.signer ≠ beneficiary) && decide (vote.beneficiary ≠ beneficiary)
  else votes.filter (·.beneficiary ≠ beneficiary)

theorem ownVote_le (header : BlockHeader) (cliqueNonce : Bytes) (second : Bool) :
    ownVote header cliqueNonce second ≤ ownVote header cliqueNonce true := by
  cases second with
  | true => exact Nat.le_refl _
  | false => exact Nat.zero_le _

section Analyses

variable {s : State} {active : List Address} {second : Bool} {limit : Nat}

theorem authVotes_of_le (h : limit ≤ (counted config header s.latestVotes CLIQUE_NONCE_AUTH).card +
      ownVote header CLIQUE_NONCE_AUTH second) : authVotes config header second limit active s =
      (s.setVotes (s.latestVotes.filter (·.beneficiary ≠ header.coinbase)),
        some ((active ++ [header.coinbase]).insertionSort (fun a b => a.value ≤ b.value))) := by
  rw [← length_beneficiaryVotes] at h
  exact if_pos h

theorem authVotes_of_lt (h : (counted config header s.latestVotes CLIQUE_NONCE_AUTH).card +
      ownVote header CLIQUE_NONCE_AUTH second < limit) :
    authVotes config header second limit active s = (s, none) := by
  rw [← length_beneficiaryVotes] at h
  exact if_neg (Nat.not_le.mpr h)

theorem dropVotes_of_le (h : limit ≤ (counted config header s.latestVotes CLIQUE_NONCE_DROP).card +
      ownVote header CLIQUE_NONCE_DROP second) : dropVotes config header second limit active s =
      (s.setVotes (s.latestVotes.filter fun vote =>
          decide (vote.signer ≠ header.coinbase) && decide (vote.beneficiary ≠ header.coinbase)),
        some (active.filter (· ≠ header.coinbase))) := by
  rw [← length_beneficiaryVotes] at h
  exact if_pos h

theorem dropVotes_of_lt (h : (counted config header s.latestVotes CLIQUE_NONCE_DROP).card +
      ownVote header CLIQUE_NONCE_DROP second < limit) :
    dropVotes config header second limit active s = (s, none) := by
  rw [← length_beneficiaryVotes] at h
  exact if_neg (Nat.not_le.mpr h)

/-- The votes of a state after a round that has kept `votes`. -/
def State.endRound (header : BlockHeader) (second : Bool) (votes : List CliqueVote) (s : State) :
    State := s.setVotes (if second then votes else votes ++ [header.vote])

section

variable (hactive : cliqueActiveSigners header.number s = .ok active)
include hactive

/-- A round in terms of its two analyses. -/
theorem voteRound_eq {s₁ s₂ : State} {added dropped : Option (List Address)}
    (hauth : authVotes config header second (active.length / 2 + 1) active s = (s₁, added))
    (hdrop : dropVotes config header second (active.length / 2 + 1) (added.getD active) s₁ =
      (s₂, dropped)) : voteRound config header second s =
      .ok (s₂.endRound header second s₂.latestVotes, dropped.or added) := by
  unfold voteRound cliqueSignerLimit
  rw [hactive]
  simp only [bind, Except.bind, pure, Except.pure, hauth, hdrop]
  cases second <;> rfl

/-- A round without a majority of useless votes, in which the useful ones suffice. -/
theorem voteRound_consensus
    (huseless : (counted config header s.latestVotes (uselessNonce active header.coinbase)).card +
      ownVote header (uselessNonce active header.coinbase) true < active.length / 2 + 1)
    (huseful : active.length / 2 + 1 ≤
      (counted config header s.latestVotes (usefulNonce active header.coinbase)).card +
        ownVote header (usefulNonce active header.coinbase) second) :
    voteRound config header second s =
      .ok (s.endRound header second (keptVotes active header.coinbase s.latestVotes),
        some (changedSigners active header.coinbase)) := by
  have hown := ownVote_le header (uselessNonce active header.coinbase) second
  by_cases hmem : header.coinbase ∈ active
  · simp only [uselessNonce, usefulNonce, if_pos hmem] at huseless huseful hown
    have hauth : authVotes config header second (active.length / 2 + 1) active s = (s, none) :=
      authVotes_of_lt (Nat.lt_of_le_of_lt (Nat.add_le_add_left hown _) huseless)
    rw [voteRound_eq hactive hauth (dropVotes_of_le huseful)]
    simp only [keptVotes, changedSigners, if_pos hmem, Option.getD_none, Option.or_none]
    rfl
  · simp only [uselessNonce, usefulNonce, if_neg hmem] at huseless huseful hown
    -- nothing is left for the DROP analysis
    have hnone : (counted config header (s.latestVotes.filter (·.beneficiary ≠ header.coinbase))
        CLIQUE_NONCE_DROP).card = 0 := by
      rw [counted_discarded fun vote hvote => of_decide_eq_true hvote]
      rfl
    have hlt : (counted config header (s.latestVotes.filter (·.beneficiary ≠ header.coinbase))
        CLIQUE_NONCE_DROP).card + ownVote header CLIQUE_NONCE_DROP second <
          active.length / 2 + 1 := by
      rw [hnone, Nat.zero_add]
      exact Nat.lt_of_le_of_lt hown (Nat.lt_of_le_of_lt (Nat.le_add_left _ _) huseless)
    have hdrop : dropVotes config header second (active.length / 2 + 1)
        ((active ++ [header.coinbase]).insertionSort (fun a b => a.value ≤ b.value))
        (s.setVotes (s.latestVotes.filter (·.beneficiary ≠ header.coinbase))) = (_, none) :=
      dropVotes_of_lt hlt
    rw [voteRound_eq hactive (authVotes_of_le huseful) hdrop]
    simp only [keptVotes, changedSigners, if_neg hmem, Option.none_or]
    rfl

/-- A round without a majority. -/
theorem voteRound_none
    (huseless : (counted config header s.latestVotes (uselessNonce active header.coinbase)).card +
      ownVote header (uselessNonce active header.coinbase) true < active.length / 2 + 1)
    (huseful : (counted config header s.latestVotes (usefulNonce active header.coinbase)).card +
        ownVote header (usefulNonce active header.coinbase) second < active.length / 2 + 1) :
    voteRound config header second s = .ok (s.endRound header second s.latestVotes, none) := by
  have hown := ownVote_le header (uselessNonce active header.coinbase) second
  have huseless' := Nat.lt_of_le_of_lt (Nat.add_le_add_left hown _) huseless
  by_cases hmem : header.coinbase ∈ active
  · simp only [uselessNonce, usefulNonce, if_pos hmem] at huseless' huseful
    exact voteRound_eq hactive (authVotes_of_lt huseless') (dropVotes_of_lt huseful)
  · simp only [uselessNonce, usefulNonce, if_neg hmem] at huseless' huseful
    exact voteRound_eq hactive (authVotes_of_lt huseful) (dropVotes_of_lt huseless')

end

theorem endRound_false (votes : List CliqueVote) :
    s.endRound header false votes = s.setVotes (votes ++ [header.vote]) := rfl

variable (hactive : cliqueActiveSigners header.number s = .ok active)
  (hcoinbase : header.coinbase ≠ Address.zero)
  (huseless : (counted config header s.latestVotes (uselessNonce active header.coinbase)).card +
    ownVote header (uselessNonce active header.coinbase) true < active.length / 2 + 1)

include hactive hcoinbase huseless

/-- The votes of the others suffice: the vote of the block stays in the history. -/
theorem cliqueUpdateVotes_early (hearly : active.length / 2 + 1 ≤
      (counted config header s.latestVotes (usefulNonce active header.coinbase)).card) :
    cliqueUpdateVotes config (some header) s = .ok (cliqueUpdateSignerStates
      (some (header.number, changedSigners active header.coinbase))
      (s.setVotes (keptVotes active header.coinbase s.latestVotes ++ [header.vote]))) := by
  have hfirst : voteRound config header false s = _ := voteRound_consensus hactive huseless hearly
  unfold cliqueUpdateVotes
  simp only [hcoinbase, if_false, hfirst, bind, Except.bind]
  rfl

theorem cliqueUpdateVotes_late
    (hearly : (counted config header s.latestVotes (usefulNonce active header.coinbase)).card <
      active.length / 2 + 1) (hlate : active.length / 2 + 1 ≤
      (counted config header s.latestVotes (usefulNonce active header.coinbase)).card +
        ownVote header (usefulNonce active header.coinbase) true) :
    cliqueUpdateVotes config (some header) s = .ok (cliqueUpdateSignerStates
      (some (header.number, changedSigners active header.coinbase))
      (s.setVotes (keptVotes active header.coinbase (s.latestVotes ++ [header.vote])))) := by
  have hfirst : voteRound config header false s = _ := voteRound_none hactive huseless hearly
  have hsecond : voteRound config header true (s.setVotes (s.latestVotes ++ [header.vote])) = _ :=
    voteRound_consensus hactive
      (by rw [State.setVotes, counted_append]; exact huseless)
      (by rw [State.setVotes, counted_append]; exact hlate)
  unfold cliqueUpdateVotes
  simp only [hcoinbase, if_false, hfirst, bind, Except.bind, endRound_false, hsecond]
  rfl

theorem cliqueUpdateVotes_none
    (hlate : (counted config header s.latestVotes (usefulNonce active header.coinbase)).card +
        ownVote header (usefulNonce active header.coinbase) true < active.length / 2 + 1) :
    cliqueUpdateVotes config (some header) s =
      .ok ((s.setVotes (s.latestVotes ++ [header.vote])).trimVotes config) := by
  have hfirst : voteRound config header false s = _ :=
    voteRound_none hactive huseless (Nat.lt_of_le_of_lt (Nat.le_add_right _ _) hlate)
  have hsecond : voteRound config header true (s.setVotes (s.latestVotes ++ [header.vote])) = _ :=
    voteRound_none hactive
      (by rw [State.setVotes, counted_append]; exact huseless)
      (by rw [State.setVotes, counted_append]; exact hlate)
  unfold cliqueUpdateVotes
  simp only [hcoinbase, if_false, hfirst, bind, Except.bind, endRound_false, hsecond]
  rfl

end Analyses

end CliqueConsensus
