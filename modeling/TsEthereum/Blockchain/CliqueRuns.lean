-- SUMMARY: Clique chains: the list of signer states, one block, and any chain of blocks against the reference.
import TsEthereum.Blockchain.CliqueSigners

/-!
# Clique chains

A chain of blocks on top of the genesis block. The state refers to the block before, and
`Refines` relates it to the reference up to votes that no longer count.
-/

open List Nat Finset

namespace CliqueConsensus

open Ballot Electorate

variable {config : CliqueConfig} {header : BlockHeader} {s : State} {n : Nat} {active : List Address}

/-! ## Signer states -/

/-- Block numbers grow along the list, and the last entry is the one in force after block `n`. -/
structure InForce (states : List CliqueSignerState) (n : Nat) (active : List Address) : Prop where
  sorted : states.Pairwise fun a b => a.1 < b.1
  last : ∃ m ≤ n, ∃ older, states = older ++ [(m, active)]

namespace InForce

variable {states : List CliqueSignerState}

theorem le (h : InForce states n active) {state : CliqueSignerState} (hmem : state ∈ states) :
    state.1 ≤ n := by
  obtain ⟨m, hm, older, rfl⟩ := h.last
  cases List.mem_append.mp hmem with
  | inl hold =>
    have hlt := (List.pairwise_append.mp h.sorted).2.2 state hold (m, active) List.mem_cons_self
    exact Nat.le_trans (Nat.le_of_lt hlt) hm
  | inr hlast => exact (List.mem_singleton.mp hlast) ▸ hm

theorem mono (h : InForce states n active) {n' : Nat} (hn : n ≤ n') : InForce states n' active := by
  obtain ⟨m, hm, hlast⟩ := h.last
  exact ⟨h.sorted, m, Nat.le_trans hm hn, hlast⟩

theorem activeSigners (h : InForce s.latestSignerStates n active) {blockNum : Nat} (hn : n < blockNum) :
    cliqueActiveSigners blockNum s = .ok active := by
  obtain ⟨m, hm, older, hstates⟩ := h.last
  have hlt : m < blockNum := Nat.lt_of_le_of_lt hm hn
  unfold cliqueActiveSigners
  rw [hstates]
  simp [hlt]

theorem trim (h : InForce s.latestSignerStates n active) :
    InForce s.trimSignerStates.latestSignerStates n active := by
  unfold State.trimSignerStates
  split
  · rename_i lastBlockNumber _
    obtain ⟨m, hm, older, hstates⟩ := h.last
    have hsorted := h.sorted
    rw [hstates] at hsorted
    dsimp only
    rw [hstates, List.filter_append]
    by_cases hkeep : (lastBlockNumber : Int) - CLIQUE_SIGNER_HISTORY_BLOCK_LIMIT ≤ m
    · simp only [List.filter_cons, hkeep, decide_true, if_true, List.filter_nil,
        List.isEmpty_iff, List.append_eq_nil_iff, List.cons_ne_nil, and_false, if_false]
      refine ⟨?_, m, hm, _, rfl⟩
      exact hsorted.sublist (List.Sublist.append_right List.filter_sublist _)
    · -- the older entries are below the limit as well
      have hnone : older.filter (fun state => decide
          ((lastBlockNumber : Int) - CLIQUE_SIGNER_HISTORY_BLOCK_LIMIT ≤ state.1)) = [] := by
        apply List.filter_eq_nil_iff.mpr
        intro state hstate hle
        have hlt := (List.pairwise_append.mp hsorted).2.2 state hstate (m, active) List.mem_cons_self
        have hle := of_decide_eq_true hle
        exact hkeep (le_trans hle (by exact_mod_cast Nat.le_of_lt hlt))
      rw [hnone]
      simp only [List.filter_cons, hkeep, decide_false, Bool.false_eq_true, if_false, List.filter_nil,
        List.append_nil, List.isEmpty_nil, if_true, List.getLast?_append, List.getLast?_singleton,
        Option.some_or, Option.toList_some]
      exact ⟨List.pairwise_singleton _ _, m, hm, [], rfl⟩
  · exact h

variable {number : Nat}

theorem sorted_concat (h : InForce states n active) (hn : n < number) (signers : List Address) :
    (states ++ [(number, signers)]).Pairwise fun a b => a.1 < b.1 := by
  refine List.pairwise_append.mpr ⟨h.sorted, List.pairwise_singleton _ _, ?_⟩
  intro a ha b hb
  rw [List.mem_singleton.mp hb]
  exact Nat.lt_of_le_of_lt (h.le ha) hn

/-- An entry for a later block is the last one. -/
theorem update_eq (h : InForce s.latestSignerStates n active) (hn : n < number)
    (signers : List Address) :
    cliqueUpdateSignerStates (some (number, signers)) s = State.trimSignerStates
      { s with latestSignerStates := s.latestSignerStates ++ [(number, signers)] } := by
  have hunknown : s.latestSignerStates.any (·.1 = number) = false := by
    apply any_eq_false.mpr
    intro state hstate heq
    exact Nat.not_lt.mpr (h.le hstate) (of_decide_eq_true heq ▸ hn)
  have hkept : (s.latestSignerStates ++ [(number, signers)]).insertionSort (fun a b => a.1 ≤ b.1) =
      s.latestSignerStates ++ [(number, signers)] :=
    Pairwise.insertionSort_eq ((h.sorted_concat hn signers).imp fun h => Nat.le_of_lt h)
  unfold cliqueUpdateSignerStates
  dsimp only
  rw [if_neg (hunknown ▸ Bool.false_ne_true), hkept]

theorem update (h : InForce s.latestSignerStates n active) (hn : n < number)
    (signers : List Address) :
    InForce (cliqueUpdateSignerStates (some (number, signers)) s).latestSignerStates number signers := by
  rw [h.update_eq hn]
  exact InForce.trim ⟨h.sorted_concat hn signers, number, Nat.le_refl _, _, rfl⟩

theorem genesis (config : CliqueConfig) (genesisSigners : List Address) :
    InForce (genesisInit config genesisSigners).latestSignerStates 0 genesisSigners :=
  ⟨pairwise_singleton _ _, 0, Nat.le_refl _, [], rfl⟩

end InForce

/-! ## Sorted lists -/

theorem value_injective : Function.Injective Address.value := by
  intro a b h
  have hbytes : a.bytes = b.bytes :=
    bytesToBigInt_inj (a.length_eq.trans b.length_eq.symm) h
  cases a
  cases b
  simpa using hbytes

/-- In the order of their numbers, each once. -/
def Sorted (signers : List Address) : Prop := signers.Pairwise fun a b => a.value < b.value

theorem Sorted.nodup {signers : List Address} (h : Sorted signers) : signers.Nodup := by
  unfold Sorted at h
  exact h.imp fun hlt => ne_of_apply_ne Address.value hlt.ne

theorem Sorted.changed (h : Sorted active) (beneficiary : Address) :
    Sorted (changedSigners active beneficiary) := by
  unfold changedSigners
  split
  · exact h.sublist filter_sublist
  · rename_i hnew
    have hle := pairwise_insertionSort (fun a b : Address => a.value ≤ b.value)
      (active ++ [beneficiary])
    have hnodup : ((active ++ [beneficiary]).insertionSort fun a b => a.value ≤ b.value).Nodup :=
      (perm_insertionSort _ _).nodup_iff.mpr
        (List.Nodup.append h.nodup (nodup_singleton _) (by simpa using hnew))
    exact (hle.and hnodup).imp fun h => lt_of_le_of_ne h.1 fun heq => h.2 (value_injective heq)

theorem toFinset_changed (active : List Address) (beneficiary : Address) :
    (changedSigners active beneficiary).toFinset =
      if beneficiary ∈ active then active.toFinset.erase beneficiary
      else insert beneficiary active.toFinset := by
  unfold changedSigners
  split
  · ext a
    simp [and_comm]
  · ext a
    simp [or_comm]

/-! ## Votes -/

theorem lastEpoch_eq (config : CliqueConfig) (n : Nat) :
    config.lastEpochBlockNumber n = config.epoch * (n / config.epoch) := by
  have hdiv := div_add_mod n config.epoch
  unfold CliqueConfig.lastEpochBlockNumber
  omega

theorem lastEpoch_mono (config : CliqueConfig) {m n : Nat} (h : m ≤ n) :
    config.lastEpochBlockNumber m ≤ config.lastEpochBlockNumber n := by
  rw [lastEpoch_eq, lastEpoch_eq]
  exact Nat.mul_le_mul_left _ (Nat.div_le_div_right h)

theorem lastEpoch_succ (config : CliqueConfig) {n : Nat} (h : (n + 1) % config.epoch ≠ 0) :
    config.lastEpochBlockNumber (n + 1) = config.lastEpochBlockNumber n := by
  rw [lastEpoch_eq, lastEpoch_eq, Nat.succ_div, if_neg fun hdvd => h (mod_eq_zero_of_dvd hdvd),
    Nat.add_zero]

/-- The recorded votes and the ballots of the reference. A vote of someone who is no signer is
about its own signer. -/
structure History (start n : Nat) (e : Reference) (votes : List CliqueVote) : Prop where
  alike : Alike CLIQUE_NONCE_AUTH CLIQUE_NONCE_DROP e.members (recent start votes) e.ballots
  le : ∀ vote ∈ votes, vote.blockNumber ≤ n
  voters : ∀ vote ∈ votes, vote.signer ∈ e.members ∨ vote.signer = vote.beneficiary
  ballots : ∀ v ∈ e.ballots, v.voter ∈ e.members

namespace History

variable {start : Nat} {e : Reference} {votes : List CliqueVote}

theorem mono (h : History start n e votes) {n' : Nat} (hn : n ≤ n') : History start n' e votes :=
  { h with le := fun vote hvote => Nat.le_trans (h.le vote hvote) hn }

/-- Votes before `start` may go. -/
theorem trim (h : History start n e votes) {p : CliqueVote → Bool}
    (hp : ∀ vote ∈ votes, start ≤ vote.blockNumber → p vote = true) :
    History start n e (votes.filter p) where
  alike := recent_trim hp ▸ h.alike
  le := fun vote hvote => h.le vote (mem_filter.mp hvote).1
  voters := fun vote hvote => h.voters vote (mem_filter.mp hvote).1
  ballots := h.ballots

variable {vote : CliqueVote}

theorem cast (h : History start n e votes) (hnumber : vote.blockNumber = n + 1)
    (hstart : start ≤ vote.blockNumber) (hsigner : vote.signer ∈ e.members) :
    History start (n + 1) ⟨e.members, e.ballots ++ [vote.ballot]⟩ (votes ++ [vote]) where
  alike := recent_append hstart votes ▸ h.alike.append vote.ballot
  le := by
    intro v hv
    cases List.mem_append.mp hv with
    | inl hv => exact Nat.le_succ_of_le (h.le v hv)
    | inr hv => exact List.mem_singleton.mp hv ▸ hnumber.le
  voters := by
    intro v hv
    cases List.mem_append.mp hv with
    | inl hv => exact h.voters v hv
    | inr hv => exact .inl (List.mem_singleton.mp hv ▸ hsigner)
  ballots := by
    intro v hv
    cases List.mem_append.mp hv with
    | inl hv => exact h.ballots v hv
    | inr hv =>
      rw [List.mem_singleton.mp hv]
      exact hsigner

theorem recent_kept (start : Nat) (active : List Address) (beneficiary : Address)
    (votes : List CliqueVote) :
    recent start (keptVotes active beneficiary votes) =
      if beneficiary ∈ active then
        (recent start votes).filter fun v => v.voter ≠ beneficiary ∧ v.about ≠ beneficiary
      else (recent start votes).filter fun v => v.about ≠ beneficiary := by
  unfold keptVotes
  split
  · rw [← recent_filter]
    simp only [Bool.decide_and]
    rfl
  · exact recent_filter start votes fun v => v.about ≠ beneficiary

theorem mem_kept {beneficiary : Address} (h : vote ∈ keptVotes active beneficiary votes) :
    vote ∈ votes ∧ vote.beneficiary ≠ beneficiary ∧
      (beneficiary ∈ active → vote.signer ≠ beneficiary) := by
  unfold keptVotes at h
  split at h
  · rename_i hmem
    obtain ⟨hvote, htests⟩ := mem_filter.mp h
    simp only [Bool.and_eq_true, decide_eq_true_eq] at htests
    exact ⟨hvote, htests.2, fun _ => htests.1⟩
  · rename_i hnew
    obtain ⟨hvote, htest⟩ := mem_filter.mp h
    exact ⟨hvote, of_decide_eq_true htest, fun hmem => (hnew hmem).elim⟩

/-- The beneficiary changes sides. -/
theorem decided (h : History start n e votes) (hactive : active.toFinset = e.members)
    (beneficiary : Address) :
    History start n (e.decided beneficiary) (keptVotes active beneficiary votes) := by
  have hmem : beneficiary ∈ active ↔ beneficiary ∈ e.members := by rw [← hactive, mem_toFinset]
  have hle : ∀ vote ∈ keptVotes active beneficiary votes, vote.blockNumber ≤ n :=
    fun vote hvote => h.le vote (mem_kept hvote).1
  have hrecent := recent_kept start active beneficiary votes
  unfold Electorate.decided
  by_cases hb : beneficiary ∈ e.members
  · rw [if_pos (hmem.mpr hb)] at hrecent
    rw [if_pos hb]
    refine ⟨hrecent ▸ h.alike.leave beneficiary, hle, ?_, ?_⟩
    · intro vote hvote
      obtain ⟨hold, -, hsigner⟩ := mem_kept hvote
      exact (h.voters vote hold).imp_left fun hm =>
        Finset.mem_erase.mpr ⟨hsigner (hmem.mpr hb), hm⟩
    · intro v hv
      obtain ⟨hv, htest⟩ := mem_filter.mp hv
      exact Finset.mem_erase.mpr ⟨(of_decide_eq_true htest).1, h.ballots v hv⟩
  · rw [if_neg fun hm => hb (hmem.mp hm)] at hrecent
    rw [if_neg hb]
    refine ⟨hrecent ▸ h.alike.join ?_ ?_, hle, ?_, ?_⟩
    · intro v hv hvoter
      obtain ⟨vote, hvote, -, rfl⟩ := mem_recent.mp hv
      cases h.voters vote hvote with
      | inl hm => exact (hb (hvoter ▸ hm)).elim
      | inr hself => exact hself.symm.trans hvoter
    · exact fun v hv hvoter => hb (hvoter ▸ h.ballots v hv)
    · intro vote hvote
      exact (h.voters vote (mem_kept hvote).1).imp_left (mem_insert_of_mem ·)
    · intro v hv
      exact mem_insert_of_mem (h.ballots v (mem_filter.mp hv).1)

/-- The vote of the block stays in the history after a consensus of the others. It must not
be one that can change the beneficiary's side back. -/
theorem decided_append (h : History start n e votes) (hactive : active.toFinset = e.members)
    (hnumber : vote.blockNumber = n + 1) (hstart : start ≤ vote.blockNumber)
    (hsigner : vote.signer ∈ e.members)
    (hnonce : vote.cliqueNonce ≠ uselessNonce active vote.beneficiary) :
    History start (n + 1) (Electorate.decided ⟨e.members, e.ballots ++ [vote.ballot]⟩ vote.beneficiary)
      (keptVotes active vote.beneficiary votes ++ [vote]) := by
  have hmem : vote.beneficiary ∈ active ↔ vote.beneficiary ∈ e.members := by
    rw [← hactive, List.mem_toFinset]
  have hdecided := h.decided hactive vote.beneficiary
  -- the ballot of the block is void in the reference
  have hvoid : Electorate.decided ⟨e.members, e.ballots ++ [vote.ballot]⟩ vote.beneficiary =
      e.decided vote.beneficiary := by
    simp [Electorate.decided, CliqueVote.ballot]
  have heffective : effective CLIQUE_NONCE_AUTH CLIQUE_NONCE_DROP
      (e.decided vote.beneficiary).members vote.beneficiary =
        uselessNonce active vote.beneficiary := by
    unfold Electorate.decided effective uselessNonce
    by_cases hb : vote.beneficiary ∈ e.members
    · rw [if_pos hb, if_pos (hmem.mpr hb), if_neg (Finset.notMem_erase _ _)]
    · rw [if_neg hb, if_neg (fun hm => hb (hmem.mp hm)), if_pos (Finset.mem_insert_self _ _)]
  have hnone : latest (recent start (keptVotes active vote.beneficiary votes)) vote.signer
      vote.beneficiary = none := by
    apply latest_eq_none
    intro v hv _
    obtain ⟨vote', hvote', -, rfl⟩ := mem_recent.mp hv
    exact (mem_kept hvote').2.1
  rw [hvoid]
  refine ⟨?_, ?_, ?_, hdecided.ballots⟩
  · rw [recent_append hstart]
    exact hdecided.alike.append_left (fun _ => heffective ▸ hnonce) hnone
  · intro v hv
    cases List.mem_append.mp hv with
    | inl hv => exact Nat.le_succ_of_le (hdecided.le v hv)
    | inr hv => exact List.mem_singleton.mp hv ▸ hnumber.le
  · intro v hv
    cases List.mem_append.mp hv with
    | inl hv => exact hdecided.voters v hv
    | inr hv =>
      rw [List.mem_singleton.mp hv]
      -- a signer that is voted out by others keeps its own last vote
      by_cases hself : vote.signer = vote.beneficiary
      · exact .inr hself
      · refine .inl ?_
        unfold Electorate.decided
        split
        · exact Finset.mem_erase.mpr ⟨hself, hsigner⟩
        · exact Finset.mem_insert_of_mem hsigner

end History

/-! ## One block -/

/-- The condition on a block with the signers in force. Votes that cannot change the side of
the beneficiary are no majority; a block whose vote comes after a majority is not against it;
and votes that their signers have replaced do not make the majority. -/
def CountsAgree (config : CliqueConfig) (header : BlockHeader) (active : List Address)
    (votes : List CliqueVote) : Prop :=
  let useful := usefulNonce active header.coinbase
  let useless := uselessNonce active header.coinbase
  let limit := active.length / 2 + 1
  (counted config header votes useless).card + ownVote header useless true < limit ∧
    (limit ≤ (counted config header votes useful).card → header.nonce ≠ useless) ∧
    (limit ≤ (counted config header votes useful).card + ownVote header useful true →
      limit ≤ (standing active.toFinset (recent (config.lastEpochBlockNumber header.number) votes)
        header.signer header.coinbase useful).card + ownVote header useful true)

instance (config : CliqueConfig) (header : BlockHeader) (active : List Address)
    (votes : List CliqueVote) : Decidable (CountsAgree config header active votes) :=
  inferInstanceAs (Decidable (_ ∧ _ ∧ _))

theorem CountsAgree.of_recent {votes votes' : List CliqueVote}
    (h : CountsAgree config header active votes)
    (hrecent : recent (config.lastEpochBlockNumber header.number) votes' =
      recent (config.lastEpochBlockNumber header.number) votes) :
    CountsAgree config header active votes' := by
  unfold CountsAgree counted
  rw [hrecent]
  exact h

/-- The object after block `n`, and the reference. -/
structure Refines (config : CliqueConfig) (n : Nat) (active : List Address) (e : Reference)
    (s : State) : Prop where
  inForce : InForce s.latestSignerStates n active
  sorted : Sorted active
  members : active.toFinset = e.members
  history : History (config.lastEpochBlockNumber n) n e s.latestVotes
  blockSigners : ∀ b ∈ s.latestBlockSigners, b.1 ≤ n

theorem trimSignerStates_fields (s : State) : s.trimSignerStates.latestVotes = s.latestVotes ∧
    s.trimSignerStates.latestBlockSigners = s.latestBlockSigners := by
  unfold State.trimSignerStates
  split <;> exact ⟨rfl, rfl⟩

theorem cliqueUpdateSignerStates_fields (signerState : Option CliqueSignerState) (s : State) :
    (cliqueUpdateSignerStates signerState s).latestVotes = s.latestVotes ∧
      (cliqueUpdateSignerStates signerState s).latestBlockSigners = s.latestBlockSigners := by
  unfold cliqueUpdateSignerStates
  split
  · split
    · exact ⟨rfl, rfl⟩
    · exact trimSignerStates_fields _
  · exact trimSignerStates_fields s

theorem lastBlockNumber_le {s : State} (h : ∀ b ∈ s.latestBlockSigners, b.1 ≤ n) {last : Nat}
    (hlast : s.lastBlockNumber = some last) : last ≤ n := by
  unfold State.lastBlockNumber at hlast
  split at hlast
  · rename_i m signer hget
    obtain rfl := Option.some.inj hlast
    exact h _ (mem_of_getLast? hget)
  · cases hlast

namespace Refines

variable {e : Reference}

section

variable (h : Refines config n active e s)
include h

/-- The new signers after a consensus in the next block. -/
theorem update {e' : Reference} {votes : List CliqueVote}
    {beneficiary : Address} (hmembers : e'.members = (e.decided beneficiary).members)
    (hhistory : History (config.lastEpochBlockNumber (n + 1)) (n + 1) e' votes) :
    Refines config (n + 1) (changedSigners active beneficiary) e'
      (cliqueUpdateSignerStates (some (n + 1, changedSigners active beneficiary))
        (s.setVotes votes)) := by
  obtain ⟨hvotes, hblockSigners⟩ := cliqueUpdateSignerStates_fields
    (some (n + 1, changedSigners active beneficiary)) (s.setVotes votes)
  have hforce : InForce (s.setVotes votes).latestSignerStates n active := h.inForce
  have hmem : beneficiary ∈ active ↔ beneficiary ∈ e.members := by rw [← h.members, mem_toFinset]
  refine ⟨hforce.update (lt_succ_self n) _, h.sorted.changed beneficiary, ?_, hvotes ▸ hhistory,
    fun b hb => le_succ_of_le (h.blockSigners b (hblockSigners ▸ hb))⟩
  rw [toFinset_changed, hmembers, h.members]
  unfold Electorate.decided
  by_cases hb : beneficiary ∈ e.members
  · rw [if_pos (hmem.mpr hb), if_pos hb]
  · rw [if_neg (fun hm => hb (hmem.mp hm)), if_neg hb]

theorem trimVotes : Refines config n active e (s.trimVotes config) := by
  unfold State.trimVotes
  split
  · rename_i last hlast
    have hle := lastEpoch_mono config (lastBlockNumber_le h.blockSigners hlast)
    refine { h with history := h.history.trim ?_ }
    intro vote _ hstart
    apply decide_eq_true
    have hstart' : (config.lastEpochBlockNumber last : Int) ≤ vote.blockNumber := by
      exact_mod_cast Nat.le_trans hle hstart
    exact le_trans (sub_le_self _ (by decide)) hstart'
  · exact h

/-- A vote in the next block. -/
theorem cast (hnumber : header.number = n + 1)
    (hepoch : cliqueIsEpochTransition config header = false)
    (hcoinbase : header.coinbase ≠ Address.zero) (hsigner : header.signer ∈ active)
    (hcounts : CountsAgree config header active s.latestVotes) :
    ∃ active' s', cliqueUpdateVotes config (some header) s = .ok s' ∧ Refines config (n + 1) active'
        (e.cast CLIQUE_NONCE_AUTH CLIQUE_NONCE_DROP header.vote.ballot) s' := by
  obtain ⟨huseless, hagainst, hreplaced⟩ := hcounts
  have hlt : n < header.number := hnumber ▸ lt_succ_self n
  have hactive := h.inForce.activeSigners hlt
  have hmem : header.coinbase ∈ active ↔ header.coinbase ∈ e.members := by
    rw [← h.members, mem_toFinset]
  have hmember : header.signer ∈ e.members := h.members ▸ mem_toFinset.mpr hsigner
  have hcard : e.members.card = active.length := by
    rw [← h.members]
    exact toFinset_card_of_nodup h.sorted.nodup
  have huseful : effective CLIQUE_NONCE_AUTH CLIQUE_NONCE_DROP e.members header.coinbase =
      usefulNonce active header.coinbase := by
    unfold effective usefulNonce
    simp only [hmem]
  have hstart : config.lastEpochBlockNumber (n + 1) = config.lastEpochBlockNumber n :=
    lastEpoch_succ config (hnumber ▸ of_decide_eq_false hepoch)
  have hhistory : History (config.lastEpochBlockNumber (n + 1)) n e s.latestVotes :=
    hstart ▸ h.history
  have hvote : config.lastEpochBlockNumber (n + 1) ≤ header.vote.blockNumber :=
    Nat.le_trans (sub_le _ _) hnumber.ge
  -- the majority of the reference
  have hstanding := hhistory.alike.standing_eq header.signer header.coinbase
  have hsupport := card_support_cast (e := e) (v := header.vote.ballot) hmember
    (usefulNonce active header.coinbase)
  rw [huseful, ← hnumber] at hstanding
  rw [h.members, hstanding] at hreplaced
  have hsubset : (standing e.members e.ballots header.signer header.coinbase
      (usefulNonce active header.coinbase)).card ≤
        (counted config header s.latestVotes (usefulNonce active header.coinbase)).card := by
    rw [← hstanding]
    exact card_le_card (standing_subset_recorded ..)
  have hown : ownVote header (usefulNonce active header.coinbase) true =
      if header.vote.ballot.choice = usefulNonce active header.coinbase then 1 else 0 := by
    unfold ownVote
    simp only [Bool.true_and, decide_eq_true_eq]
    exact if_congr Iff.rfl rfl rfl
  rw [← hown] at hsupport
  have hdecides : e.members.card < 2 * (support ⟨e.members, e.ballots ++ [header.vote.ballot]⟩
      header.coinbase (usefulNonce active header.coinbase)).card ↔
      active.length / 2 + 1 ≤
        (counted config header s.latestVotes (usefulNonce active header.coinbase)).card +
          ownVote header (usefulNonce active header.coinbase) true := by
    have hmajority {k : Nat} : e.members.card < 2 * k ↔ active.length / 2 + 1 ≤ k := by omega
    rw [hmajority]
    exact ⟨fun hle => Nat.le_trans (hle.trans hsupport.le) (Nat.add_le_add_right hsubset _),
      fun hle => (hreplaced hle).trans hsupport.ge⟩
  have hcast : e.cast CLIQUE_NONCE_AUTH CLIQUE_NONCE_DROP header.vote.ballot =
      if active.length / 2 + 1 ≤
          (counted config header s.latestVotes (usefulNonce active header.coinbase)).card +
            ownVote header (usefulNonce active header.coinbase) true then
        Electorate.decided ⟨e.members, e.ballots ++ [header.vote.ballot]⟩ header.coinbase
      else ⟨e.members, e.ballots ++ [header.vote.ballot]⟩ := by
    unfold Electorate.cast
    rw [show header.vote.ballot.about = header.coinbase from rfl, huseful]
    simp only [hdecides]
  rw [hcast]
  have hvoted : History (config.lastEpochBlockNumber (n + 1)) (n + 1)
      ⟨e.members, e.ballots ++ [header.vote.ballot]⟩ (s.latestVotes ++ [header.vote]) :=
    hhistory.cast hnumber hvote hmember
  have hsame : (Electorate.decided ⟨e.members, e.ballots ++ [header.vote.ballot]⟩
      header.coinbase).members = (e.decided header.coinbase).members := by
    unfold Electorate.decided
    dsimp only
    split <;> rfl
  split
  · rename_i hmajority
    rcases Nat.lt_or_ge (counted config header s.latestVotes
      (usefulNonce active header.coinbase)).card (active.length / 2 + 1) with hearly | hearly
    · refine ⟨changedSigners active header.coinbase, _, cliqueUpdateVotes_late hactive hcoinbase huseless hearly hmajority, ?_⟩
      rw [hnumber]
      exact h.update hsame (hvoted.decided h.members header.coinbase)
    · refine ⟨changedSigners active header.coinbase, _, cliqueUpdateVotes_early hactive hcoinbase huseless hearly, ?_⟩
      rw [hnumber]
      have hkept : History (config.lastEpochBlockNumber (n + 1)) (n + 1)
          (Electorate.decided ⟨e.members, e.ballots ++ [header.vote.ballot]⟩ header.coinbase)
          (keptVotes active header.coinbase s.latestVotes ++ [header.vote]) :=
        hhistory.decided_append h.members hnumber hvote hmember (hagainst hearly)
      exact h.update hsame hkept
  · rename_i hminority
    refine ⟨active, _, cliqueUpdateVotes_none hactive hcoinbase huseless (Nat.lt_of_not_le hminority), ?_⟩
    exact Refines.trimVotes ⟨h.inForce.mono (le_succ n), h.sorted, h.members, hvoted,
      fun b hb => le_succ_of_le (h.blockSigners b hb)⟩

/-- With no later block only the trimming is left of `_cliqueDeleteSnapshots`. -/
theorem deleteSnapshots_eq :
    cliqueDeleteSnapshots config (n + 1) s = { s.trimSignerStates.trimVotes config with
      latestBlockSigners :=
        (s.trimSignerStates.trimVotes config).latestBlockSigners.filter (·.1 ≤ n + 1) } := by
  have hstates : s.latestSignerStates.filter (·.1 ≤ n + 1) = s.latestSignerStates :=
    List.filter_eq_self.mpr fun state hstate =>
      decide_eq_true (le_succ_of_le (h.inForce.le hstate))
  have hvotes : s.trimSignerStates.latestVotes.filter (·.blockNumber ≤ n + 1) =
      s.trimSignerStates.latestVotes := by
    rw [(trimSignerStates_fields s).1]
    exact List.filter_eq_self.mpr fun vote hvote =>
      decide_eq_true (le_succ_of_le (h.history.le vote hvote))
  have hset : s.trimSignerStates.setVotes
      (s.trimSignerStates.latestVotes.filter (·.blockNumber ≤ n + 1)) = s.trimSignerStates := by
    rw [hvotes]
    rfl
  unfold cliqueDeleteSnapshots
  rw [hstates]
  exact congrArg (fun u => { State.trimVotes config u with
    latestBlockSigners := (State.trimVotes config u).latestBlockSigners.filter (·.1 ≤ n + 1) }) hset

theorem trimSignerStates : Refines config n active e s.trimSignerStates := by
  obtain ⟨hvotes, hsigners⟩ := trimSignerStates_fields s
  exact ⟨h.inForce.trim, h.sorted, h.members, hvotes ▸ h.history,
    fun b hb => h.blockSigners b (hsigners ▸ hb)⟩

theorem deleteSnapshots : Refines config n active e (cliqueDeleteSnapshots config (n + 1) s) := by
  have htrimmed := h.trimSignerStates.trimVotes
  rw [h.deleteSnapshots_eq]
  exact { htrimmed with
    blockSigners := fun b hb => htrimmed.blockSigners b (mem_filter.mp hb).1 }

/-- The votes that are deleted are not counted. -/
theorem recent_trimVotes {start : Nat} (hstart : config.lastEpochBlockNumber n ≤ start) :
    recent start (s.trimVotes config).latestVotes = recent start s.latestVotes := by
  unfold State.trimVotes
  split
  · rename_i last hlast
    have hle := lastEpoch_mono config (lastBlockNumber_le h.blockSigners hlast)
    apply recent_trim
    intro vote _ hvote
    apply decide_eq_true
    have hvote' : (config.lastEpochBlockNumber last : Int) ≤ vote.blockNumber := by
      exact_mod_cast Nat.le_trans (Nat.le_trans hle hstart) hvote
    exact le_trans (sub_le_self _ (by decide)) hvote'
  · rfl

/-- The block signers of the next block, also when the limit is not found. -/
theorem updateLatestBlockSigners (hnumber : header.number = n) :
    Refines config n active e (cliqueUpdateLatestBlockSigners header s).1 := by
  have hle : ∀ b ∈ s.latestBlockSigners ++ [(header.number, header.signer)], b.1 ≤ n := by
    intro b hb
    cases List.mem_append.mp hb with
    | inl hb => exact h.blockSigners b hb
    | inr hb => exact List.mem_singleton.mp hb ▸ hnumber.le
  unfold cliqueUpdateLatestBlockSigners
  split
  · exact h
  · dsimp only
    split
    · split
      · exact { h with blockSigners := fun b hb => hle b (List.mem_of_mem_drop hb) }
      · exact { h with blockSigners := hle }
    · exact { h with blockSigners := hle }

/-- An epoch transition: the earlier votes do not count any more. -/
theorem transition
    (hepoch : (n + 1) % config.epoch = 0) : Refines config (n + 1) active ⟨e.members, []⟩ s := by
  have hstart : config.lastEpochBlockNumber (n + 1) = n + 1 := by
    rw [CliqueConfig.lastEpochBlockNumber, hepoch, Nat.sub_zero]
  refine ⟨h.inForce.mono (le_succ n), h.sorted, h.members, ?_,
    fun b hb => le_succ_of_le (h.blockSigners b hb)⟩
  have hnil : recent (config.lastEpochBlockNumber (n + 1)) s.latestVotes = [] := by
    rw [hstart]
    exact recent_eq_nil fun vote hvote => lt_succ_of_le (h.history.le vote hvote)
  exact ⟨hnil ▸ fun _ _ _ => Iff.rfl, fun vote hvote => le_succ_of_le (h.history.le vote hvote),
    h.history.voters, nofun⟩

end

/-- The next block. -/
theorem append (h : Refines config n active e s) (hnumber : header.number = n + 1)
    (hsigner : header.signer ∈ active)
    (hcounts : cliqueIsEpochTransition config header = false → header.coinbase ≠ Address.zero →
      CountsAgree config header active s.latestVotes) :
    ∃ active', Refines config (n + 1) active' (Reference.append config e header)
      (CliqueConsensus.append config s header) := by
  have hdeleted := h.deleteSnapshots
  have hbuild : CliqueConsensus.append config s header =
      (cliqueBuildSnapshots config header (cliqueDeleteSnapshots config (n + 1) s)).1 := by
    unfold CliqueConsensus.append newBlock
    rw [hnumber, Nat.add_sub_cancel]
    simp only [Nat.add_sub_cancel_left, List.range'_one, List.map_cons, List.map_nil, buildAll]
    split
    · rename_i heq
      rw [heq]
    · rename_i heq
      rw [heq]
  have hvotes : recent (config.lastEpochBlockNumber header.number)
      (cliqueDeleteSnapshots config (n + 1) s).latestVotes =
        recent (config.lastEpochBlockNumber header.number) s.latestVotes := by
    rw [h.deleteSnapshots_eq]
    have hle := lastEpoch_mono config (Nat.le_succ n)
    exact (h.trimSignerStates.recent_trimVotes (hnumber ▸ hle)).trans
      (congrArg (recent _) (trimSignerStates_fields s).1)
  rw [hbuild]
  unfold cliqueBuildSnapshots Reference.append
  cases hepoch : cliqueIsEpochTransition config header with
  | true =>
    rw [if_pos rfl, if_pos rfl]
    have hmod : (n + 1) % config.epoch = 0 := hnumber ▸ of_decide_eq_true hepoch
    exact ⟨active, (hdeleted.transition hmod).updateLatestBlockSigners hnumber⟩
  | false =>
    rw [if_neg Bool.false_ne_true, if_neg Bool.false_ne_true]
    by_cases hcoinbase : header.coinbase = Address.zero
    · rw [if_pos hcoinbase]
      have hupdate : cliqueUpdateVotes config (some header) (cliqueDeleteSnapshots config (n + 1) s) =
          .ok ((cliqueDeleteSnapshots config (n + 1) s).trimVotes config) := if_pos hcoinbase
      have hstart : config.lastEpochBlockNumber (n + 1) = config.lastEpochBlockNumber n :=
        lastEpoch_succ config (hnumber ▸ of_decide_eq_false hepoch)
      have hrest := hdeleted.trimVotes
      rw [hupdate]
      refine ⟨active, Refines.updateLatestBlockSigners ?_ hnumber⟩
      exact ⟨hrest.inForce.mono (Nat.le_succ n), h.sorted, h.members,
        hstart ▸ hrest.history.mono (Nat.le_succ n),
        fun b hb => Nat.le_succ_of_le (hrest.blockSigners b hb)⟩
    · rw [if_neg hcoinbase]
      obtain ⟨active', s', hupdate, hrefines⟩ :=
        hdeleted.cast hnumber hepoch hcoinbase hsigner
          ((hcounts hepoch hcoinbase).of_recent hvotes)
      rw [hupdate]
      exact ⟨active', hrefines.updateLatestBlockSigners hnumber⟩

end Refines

/-! ## Chains -/

/-- The seal is of a signer in force before the block. -/
def validlySigned (header : BlockHeader) (s : State) : Bool :=
  match cliqueActiveSigners header.number s with
  | .ok active => cliqueVerifySignature header active
  | .error _ => false

/-- The blocks have the numbers from `n + 1` on, and each one is validly signed. -/
def Chain (config : CliqueConfig) : Nat → State → List BlockHeader → Bool
  | _, _, [] => true
  | n, s, header :: headers =>
    header.number = n + 1 && validlySigned header s &&
      Chain config (n + 1) (append config s header) headers

/-- The votes of a block are counted as they should be; a block may have none. -/
def countsAgree (config : CliqueConfig) (header : BlockHeader) (s : State) : Bool :=
  cliqueIsEpochTransition config header || decide (header.coinbase = Address.zero) ||
    match cliqueActiveSigners header.number s with
    | .ok active => decide (CountsAgree config header active s.latestVotes)
    | .error _ => true

def AllAgree (config : CliqueConfig) : State → List BlockHeader → Bool
  | _, [] => true
  | s, header :: headers =>
    countsAgree config header s && AllAgree config (append config s header) headers

theorem Refines.genesis (config : CliqueConfig) {genesisSigners : List Address}
    (hsorted : Sorted genesisSigners) :
    Refines config 0 genesisSigners ⟨genesisSigners.toFinset, []⟩
      (genesisInit config genesisSigners) where
  inForce := InForce.genesis config genesisSigners
  sorted := hsorted
  members := rfl
  history := ⟨fun _ _ _ => Iff.rfl, nofun, nofun, nofun⟩
  blockSigners := nofun

/-- Any number of blocks on top of a state that refines the reference. -/
theorem Refines.run {e : Reference} {headers : List BlockHeader} (h : Refines config n active e s)
    (hchain : Chain config n s headers = true) (hagree : AllAgree config s headers = true) :
    ∃ active', Refines config (n + headers.length) active'
      (headers.foldl (Reference.append config) e) (headers.foldl (CliqueConsensus.append config) s) := by
  induction headers generalizing n s active e with
  | nil => exact ⟨active, h⟩
  | cons header headers ih =>
    simp only [Chain, Bool.and_eq_true, decide_eq_true_eq] at hchain
    obtain ⟨⟨hnumber, hsigned⟩, hrest⟩ := hchain
    simp only [AllAgree, Bool.and_eq_true] at hagree
    have hlt : n < header.number := hnumber ▸ lt_succ_self n
    have hactive := h.inForce.activeSigners hlt
    have hsigner : header.signer ∈ active := by
      rw [validlySigned, hactive] at hsigned
      obtain ⟨a, ha, heq⟩ := List.any_eq_true.mp hsigned
      exact of_decide_eq_true heq ▸ ha
    obtain ⟨active', hnext⟩ := h.append hnumber hsigner fun hepoch hcoinbase => by
      simpa [countsAgree, hepoch, hcoinbase, hactive] using hagree.1
    obtain ⟨final, hfinal⟩ := ih hnext hrest hagree.2
    refine ⟨final, ?_⟩
    rw [length_cons, Nat.add_comm headers.length 1, ← Nat.add_assoc]
    exact hfinal

/-- After any chain of validly signed blocks on a sorted list of signers, with votes that are
counted as they should be: the active signers are those of the reference, sorted and each once. -/
theorem activeSigners_refine {genesisSigners : List Address} {headers : List BlockHeader}
    (hgenesis : Sorted genesisSigners)
    (hchain : Chain config 0 (genesisInit config genesisSigners) headers = true)
    (hagree : AllAgree config (genesisInit config genesisSigners) headers = true) :
    ∃ active, cliqueActiveSigners (headers.length + 1)
        (headers.foldl (append config) (genesisInit config genesisSigners)) = .ok active ∧
      Sorted active ∧ active.Nodup ∧ active.toFinset =
        (headers.foldl (Reference.append config) ⟨genesisSigners.toFinset, []⟩).members := by
  obtain ⟨active, hrefines⟩ := (Refines.genesis config hgenesis).run hchain hagree
  rw [Nat.zero_add] at hrefines
  exact ⟨active, hrefines.inForce.activeSigners (lt_succ_self _), hrefines.sorted,
    hrefines.sorted.nodup, hrefines.members⟩

section Sample

def sampleConfig : CliqueConfig := ⟨30000, by decide⟩

def sampleAddress (x : UInt8) : Address := ⟨List.replicate 19 0 ++ [x], by simp⟩

/-- A block with a vote of signer `x` about `y`. -/
def votes (number : Nat) (x y : UInt8) (nonce : Bytes) : BlockHeader :=
  ⟨number, sampleAddress y, nonce, sampleAddress x, []⟩

/-- The blocks pass `validateConsensus` one after the other. -/
def allValid (config : CliqueConfig) : State → List BlockHeader → Bool
  | _, [] => true
  | s, header :: headers =>
    (validateConsensus config header s).isOk && allValid config (append config s header) headers

def sampleSigners : List Address := [sampleAddress 1, sampleAddress 2, sampleAddress 3]

def sampleChain : List BlockHeader := [votes 1 1 4 CLIQUE_NONCE_AUTH, votes 2 2 4 CLIQUE_NONCE_AUTH]

theorem activeSigners_refine_sample : cliqueActiveSigners 3 (sampleChain.foldl (append sampleConfig)
        (genesisInit sampleConfig sampleSigners)) = .ok (sampleSigners ++ [sampleAddress 4]) ∧
      ∃ active, cliqueActiveSigners (sampleChain.length + 1) (sampleChain.foldl (append sampleConfig)
          (genesisInit sampleConfig sampleSigners)) = .ok active ∧ Sorted active ∧ active.Nodup ∧
        active.toFinset = (sampleChain.foldl (Reference.append sampleConfig)
          ⟨sampleSigners.toFinset, []⟩).members := by
  refine ⟨by decide +kernel, activeSigners_refine ?_ (by decide +kernel) (by decide +kernel)⟩
  unfold Sorted
  decide +kernel

/-- The only signer votes for itself. -/
def selfVote : List BlockHeader := [votes 1 1 1 CLIQUE_NONCE_AUTH]

/-- A vote is taken back, and then a second signer votes for the same beneficiary. -/
def takenBack : List BlockHeader :=
  [votes 1 1 4 CLIQUE_NONCE_AUTH, votes 2 2 0 CLIQUE_NONCE_DROP, votes 3 1 4 CLIQUE_NONCE_DROP,
    votes 4 2 4 CLIQUE_NONCE_AUTH]

theorem signers_differ :
    (allValid sampleConfig (genesisInit sampleConfig [sampleAddress 1]) selfVote = true ∧
      cliqueActiveSigners 2 (selfVote.foldl (append sampleConfig)
        (genesisInit sampleConfig [sampleAddress 1])) = .ok [sampleAddress 1, sampleAddress 1]) ∧
    (allValid sampleConfig (genesisInit sampleConfig sampleSigners) takenBack = true ∧
      cliqueActiveSigners 5 (takenBack.foldl (append sampleConfig)
        (genesisInit sampleConfig sampleSigners)) = .ok (sampleSigners ++ [sampleAddress 4]) ∧
      sampleAddress 4 ∉ (takenBack.foldl (Reference.append sampleConfig)
        ⟨sampleSigners.toFinset, []⟩).members) := by
  decide +kernel

end Sample

end CliqueConsensus
