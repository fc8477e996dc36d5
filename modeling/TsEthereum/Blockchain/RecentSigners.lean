-- SUMMARY: Clique chains with reorganisations: the recorded block signers, and which signers count as recent.
import TsEthereum.Base.Fallible
import TsEthereum.Blockchain.CliqueRuns
import Mathlib.Data.List.DropRight

/-!
# Recent signers

The snapshot of block signers over a chain that `newBlock` extends and reorganises. A
snapshot is the end of the canonical chain, as long as the limit was for its last block.
-/

open List Option Except Nat

/-! ## The end of a list -/

namespace List

theorem rtake_append_rtake {α : Type} {l r : List α} {k k' : Nat} (h : k' ≤ k + r.length) :
    (l.rtake k ++ r).rtake k' = (l ++ r).rtake k' := by
  unfold rtake
  rw [← drop_append_of_le_length (sub_le ..), drop_drop, length_drop, length_append]
  congr 1
  omega

theorem rtake_append_right {α : Type} (l : List α) {r : List α} {k : Nat} (h : k ≤ r.length) :
    (l ++ r).rtake k = r.rtake k := by
  unfold rtake
  rw [length_append, drop_append, drop_eq_nil_of_le (by omega), nil_append]
  congr 1
  omega

end List

namespace CliqueConsensus

variable {config : CliqueConfig} {header : BlockHeader} {s s' : State} {n : Nat}
  {active : List Address} {chain branch : List BlockHeader}

/-- The entry of a block among the block signers. -/
def BlockHeader.entry (header : BlockHeader) : Nat × Address := (header.number, header.signer)

/-- The votes of an epoch transition are not counted. -/
def BlockHeader.Voteless (config : CliqueConfig) (header : BlockHeader) : Prop :=
  cliqueIsEpochTransition config header = true ∨ header.coinbase = Address.zero

/-- The canonical header of a number, for a chain from block 1 on. -/
def canonicalHeader (chain : List BlockHeader) (header : BlockHeader) (number : Nat) : BlockHeader :=
  chain.getD (number - 1) header

/-- `newBlock` for the last block of a branch that forks off behind the canonical block `a`: one
block on top of the head, or a reorganisation without votes. -/
structure NewBlock (config : CliqueConfig) (chain : List BlockHeader) (s : State) (a : Nat)
    (branch : List BlockHeader) (s' : State) : Prop where
  ancestor : a ≤ chain.length
  numbers : branch.map (·.number) = List.range' (a + 1) branch.length
  extends_head : a = chain.length → branch.length = 1
  voteless : a < chain.length → ∀ header ∈ chain.drop a ++ branch, header.Voteless config
  called : ∃ header, branch.getLast? = some header ∧
    newBlock config (canonicalHeader (chain.take a ++ branch) header) header (some a) s = (s', .ok ())

/-- The chains and states that calls lead to, each of which meets a condition. -/
inductive Steps (config : CliqueConfig)
    (Meets : List BlockHeader → State → Nat → List BlockHeader → Prop) (start : List BlockHeader)
    (s₀ : State) : List BlockHeader → State → Prop
  | refl : Steps config Meets start s₀ start s₀
  | newBlock {chain : List BlockHeader} {s : State} {a : Nat} {branch : List BlockHeader} {s' : State}
      (h : Steps config Meets start s₀ chain s) (hmeets : Meets chain s a branch)
      (hstep : NewBlock config chain s a branch s') :
      Steps config Meets start s₀ (chain.take a ++ branch) s'

/-- A new branch is as long as the limit, or nothing of it and below it has an entry. -/
def LongEnough (chain : List BlockHeader) (s : State) (a : Nat) (branch : List BlockHeader) : Prop :=
  a < chain.length →
    (∀ limit, cliqueSignerLimit (a + branch.length) s = .ok limit → limit ≤ branch.length) ∨
      (a = 0 ∧ ∀ b ∈ s.latestBlockSigners, 1 < b.1)

/-! ## One block -/

theorem trimVotes_fields (s : State) :
    (s.trimVotes config).latestSignerStates = s.latestSignerStates ∧
      (s.trimVotes config).latestBlockSigners = s.latestBlockSigners := by
  unfold State.trimVotes
  split <;> exact ⟨rfl, rfl⟩

section

variable (hactive : cliqueActiveSigners header.number s = .ok active)
include hactive

/-- A round of votes leaves the snapshots, and adds at most one signer. -/
theorem voteRound_fields {second : Bool} {r : Option (List Address)}
    (h : voteRound config header second s = .ok (s', r)) :
    s'.latestSignerStates = s.latestSignerStates ∧ s'.latestBlockSigners = s.latestBlockSigners ∧
      ∀ signers ∈ r, signers.length ≤ active.length + 1 := by
  obtain ⟨s₁, added, hauth⟩ : ∃ s₁ added,
      authVotes config header second (active.length / 2 + 1) active s = (s₁, added) := ⟨_, _, rfl⟩
  obtain ⟨s₂, dropped, hdrop⟩ : ∃ s₂ dropped, dropVotes config header second
      (active.length / 2 + 1) (added.getD active) s₁ = (s₂, dropped) := ⟨_, _, rfl⟩
  rw [voteRound_eq hactive hauth hdrop] at h
  obtain ⟨rfl, rfl⟩ := Prod.mk.inj (ok.inj h)
  have hadded : s₁.latestSignerStates = s.latestSignerStates ∧
      s₁.latestBlockSigners = s.latestBlockSigners ∧
      (added.getD active).length ≤ active.length + 1 := by
    unfold authVotes at hauth
    dsimp only at hauth
    split at hauth <;> cases hauth
    · exact ⟨rfl, rfl, by simp [length_insertionSort]⟩
    · exact ⟨rfl, rfl, le_succ _⟩
  unfold dropVotes at hdrop
  dsimp only at hdrop
  split at hdrop <;> cases hdrop
  · refine ⟨hadded.1, hadded.2.1, fun signers hsigners => ?_⟩
    obtain rfl := some.inj hsigners
    exact (length_filter_le ..).trans hadded.2.2
  · refine ⟨hadded.1, hadded.2.1, fun signers hsigners => ?_⟩
    obtain rfl : added = some signers := hsigners
    exact hadded.2.2

/-- The votes of a block leave the states, or add one of the block. -/
theorem cliqueUpdateVotes_fields (h : cliqueUpdateVotes config (some header) s = .ok s') :
    s'.latestBlockSigners = s.latestBlockSigners ∧ (s'.latestSignerStates = s.latestSignerStates ∨
        header.coinbase ≠ Address.zero ∧ ∃ signers s₁, signers.length ≤ active.length + 1 ∧
          s₁.latestSignerStates = s.latestSignerStates ∧
          s' = cliqueUpdateSignerStates (some (header.number, signers)) s₁) := by
  unfold cliqueUpdateVotes at h
  dsimp only at h
  split at h
  · obtain rfl := ok.inj h
    exact ⟨(trimVotes_fields s).2, .inl (trimVotes_fields s).1⟩
  · rename_i hcoinbase
    obtain ⟨⟨s₁, r⟩, hfirst, h⟩ := bind_eq_ok.mp h
    obtain ⟨hstates, hsigners, hlength⟩ := voteRound_fields hactive hfirst
    cases r with
    | some signers =>
      obtain rfl := ok.inj h
      exact ⟨(cliqueUpdateSignerStates_fields _ s₁).2.trans hsigners,
        .inr ⟨hcoinbase, signers, s₁, hlength signers rfl, hstates, rfl⟩⟩
    | none =>
      obtain ⟨⟨s₂, r⟩, hsecond, h⟩ := bind_eq_ok.mp h
      have hactive' : cliqueActiveSigners header.number s₁ = .ok active := by
        rw [← hactive]
        unfold cliqueActiveSigners
        rw [hstates]
      obtain ⟨hstates', hsigners', hlength'⟩ := voteRound_fields hactive' hsecond
      cases r with
      | some signers =>
        obtain rfl := ok.inj h
        exact ⟨(cliqueUpdateSignerStates_fields _ s₂).2.trans (hsigners'.trans hsigners),
          .inr ⟨hcoinbase, signers, s₂, hlength' signers rfl, hstates'.trans hstates, rfl⟩⟩
      | none =>
        obtain rfl := ok.inj h
        obtain ⟨htrim, htrim'⟩ := @trimVotes_fields config s₂
        exact ⟨htrim'.trans (hsigners'.trans hsigners), .inl (htrim.trans (hstates'.trans hstates))⟩

end

/-- Where signers are found for a block that has an entry of its own, they are the earlier ones. -/
theorem active_of_update (h : InForce s.latestSignerStates n active) {number : Nat} (hn : n < number)
    (signers : List Address) {found : List Address} (hfound : cliqueActiveSigners number
      (cliqueUpdateSignerStates (some (number, signers)) s) = .ok found) : found = active := by
  rw [h.update_eq hn] at hfound
  obtain ⟨m, hm, older, hstates⟩ := h.last
  have hlt : m < number := Nat.lt_of_le_of_lt hm hn
  have hsorted := h.sorted
  rw [hstates] at hsorted
  have hlast {t : State} {kept : List CliqueSignerState}
      (ht : t.latestSignerStates = kept ++ [(m, active)] ++ [(number, signers)])
      (hfound : cliqueActiveSigners number t = .ok found) : found = active := by
    unfold cliqueActiveSigners at hfound
    rw [ht] at hfound
    simp [hlt] at hfound
    exact hfound.symm
  have hsingle {t : State} (ht : t.latestSignerStates = [(number, signers)])
      (hfound : cliqueActiveSigners number t = .ok found) : found = active := by
    unfold cliqueActiveSigners at hfound
    rw [ht] at hfound
    simp at hfound
  unfold State.trimSignerStates at hfound
  split at hfound
  · rename_i last _
    dsimp only at hfound
    rw [hstates] at hfound
    by_cases hkeep : (last : Int) - CLIQUE_SIGNER_HISTORY_BLOCK_LIMIT ≤ m
    · have hnumber : (last : Int) - CLIQUE_SIGNER_HISTORY_BLOCK_LIMIT ≤ number := by omega
      simp only [filter_append, filter_cons, hkeep, hnumber, decide_true, if_true,
        filter_nil] at hfound
      rw [if_neg (by simp)] at hfound
      exact hlast rfl hfound
    · -- the entries before this one are older still
      have hnone : older.filter (fun state => decide
          ((last : Int) - CLIQUE_SIGNER_HISTORY_BLOCK_LIMIT ≤ state.1)) = [] := by
        refine filter_eq_nil_iff.mpr fun state hstate hle => hkeep ?_
        have hold := (pairwise_append.mp hsorted).2.2 state hstate (m, active)
          mem_cons_self
        have := of_decide_eq_true hle
        dsimp only at hold
        omega
      refine hsingle ?_ hfound
      by_cases hnumber : (last : Int) - CLIQUE_SIGNER_HISTORY_BLOCK_LIMIT ≤ number <;>
        simp only [filter_append, filter_cons, hkeep, hnumber, hnone, decide_true,
          decide_false, Bool.false_eq_true, if_true, if_false, filter_nil, nil_append]
      · rfl
      · simp
  · exact hlast (by rw [← hstates]) hfound

/-- One block: its signer is recorded, up to the limit for the block. -/
theorem buildSnapshots_spec (h : InForce s.latestSignerStates n active) (hn : n < header.number)
    (hbuild : cliqueBuildSnapshots config header s = (s', .ok ())) :
    s'.latestBlockSigners = (s.latestBlockSigners ++ [header.entry]).rtake (active.length / 2 + 1) ∧
      (∃ active', active'.length ≤ active.length + 1 ∧
        InForce s'.latestSignerStates header.number active') ∧
      (header.Voteless config → s'.latestSignerStates = s.latestSignerStates) := by
  have hactive := h.activeSigners hn
  have hrecord {t : State} (ht : t.latestBlockSigners = s.latestBlockSigners)
      (hfound : ∀ found, cliqueActiveSigners header.number t = .ok found → found = active)
      (hupdate : cliqueUpdateLatestBlockSigners header t = (s', .ok ())) :
      s'.latestBlockSigners = (s.latestBlockSigners ++ [header.entry]).rtake (active.length / 2 + 1) ∧
        s'.latestSignerStates = t.latestSignerStates := by
    have hgenesis : header.isGenesis = false := decide_eq_false (by omega)
    unfold cliqueUpdateLatestBlockSigners cliqueSignerLimit at hupdate
    rw [hgenesis, ht] at hupdate
    cases hok : cliqueActiveSigners header.number t with
    | error e =>
      have hadded : cliqueActiveSigners header.number { t with latestBlockSigners :=
          s.latestBlockSigners ++ [(header.number, header.signer)] } = .error e := hok
      simp [hadded, bind, Except.bind] at hupdate
    | ok found =>
      have hadded : cliqueActiveSigners header.number { t with latestBlockSigners :=
          s.latestBlockSigners ++ [(header.number, header.signer)] } = .ok found := hok
      obtain rfl := hfound found hok
      simp only [hadded, bind, Except.bind, pure, Except.pure, Bool.false_eq_true, if_false,
        Prod.mk.injEq, and_true] at hupdate
      rw [← hupdate]
      split
      · exact ⟨rfl, rfl⟩
      · rename_i hle
        refine ⟨?_, rfl⟩
        exact (congrArg (fun k => List.drop k (s.latestBlockSigners ++ [header.entry]))
          (Nat.sub_eq_zero_of_le (Nat.le_of_not_lt hle))).symm
  unfold cliqueBuildSnapshots at hbuild
  split at hbuild
  · obtain ⟨hsigners, hstates⟩ :=
      hrecord rfl (fun _ hok => ok.inj (hok.symm.trans hactive)) hbuild
    exact ⟨hsigners, ⟨active, le_succ _, hstates ▸ h.mono hn.le⟩, fun _ => hstates⟩
  · rename_i hepoch
    cases hvotes : cliqueUpdateVotes config (some header) s with
    | error e => rw [hvotes] at hbuild; cases hbuild
    | ok t =>
      rw [hvotes] at hbuild
      obtain ⟨hkept, hsame | ⟨hcoinbase, signers, s₁, hlength, hstates₁, rfl⟩⟩ :=
        cliqueUpdateVotes_fields hactive hvotes
      · have hactive' : cliqueActiveSigners header.number t = .ok active := by
          unfold cliqueActiveSigners
          rw [hsame]
          exact hactive
        obtain ⟨hsigners, hstates⟩ :=
          hrecord hkept (fun _ hok => ok.inj (hok.symm.trans hactive')) hbuild
        refine ⟨hsigners, ⟨active, le_succ _, ?_⟩, fun _ => hstates.trans hsame⟩
        rw [hstates, hsame]
        exact h.mono hn.le
      · have h₁ : InForce s₁.latestSignerStates n active := hstates₁ ▸ h
        obtain ⟨hsigners, hstates⟩ :=
          hrecord hkept (fun _ hok => active_of_update h₁ hn signers hok) hbuild
        exact ⟨hsigners, ⟨signers, hlength, hstates ▸ h₁.update hn signers⟩,
          fun hvoteless => (hvoteless.elim hepoch hcoinbase).elim⟩

theorem deleteSnapshots_spec (config : CliqueConfig) (h : InForce s.latestSignerStates n active)
    {k : Nat} (hk : n ≤ k) :
    InForce (cliqueDeleteSnapshots config k s).latestSignerStates n active ∧
      (cliqueDeleteSnapshots config k s).latestBlockSigners =
        s.latestBlockSigners.filter (·.1 ≤ k) := by
  have hstates : s.latestSignerStates.filter (·.1 ≤ k) = s.latestSignerStates :=
    List.filter_eq_self.mpr fun state hstate => decide_eq_true ((h.le hstate).trans hk)
  unfold cliqueDeleteSnapshots cliqueUpdateSignerStates
  rw [hstates]
  dsimp only
  rw [(trimVotes_fields _).1, (trimVotes_fields _).2]
  exact ⟨h.trim, congrArg (List.filter _) (trimSignerStates_fields _).2⟩

/-! ## Several blocks -/

theorem buildAll_cons (h : buildAll config (header :: branch) s = (s', .ok ())) :
    ∃ t, cliqueBuildSnapshots config header s = (t, .ok ()) ∧
      buildAll config branch t = (s', .ok ()) := by
  unfold buildAll at h
  split at h
  · exact ⟨_, ‹_›, h⟩
  · cases h

theorem buildAll_voteless (hn : ∀ header ∈ branch, n < header.number)
    (hvoteless : ∀ header ∈ branch, header.Voteless config)
    (h : InForce s.latestSignerStates n active) (hbuild : buildAll config branch s = (s', .ok ())) :
    s'.latestSignerStates = s.latestSignerStates ∧ (branch ≠ [] → s'.latestBlockSigners =
      (s.latestBlockSigners ++ branch.map (·.entry)).rtake (active.length / 2 + 1)) := by
  induction branch generalizing s with
  | nil =>
    obtain rfl := (Prod.mk.inj hbuild).1
    exact ⟨rfl, fun h => absurd rfl h⟩
  | cons header branch ih =>
    obtain ⟨t, hfirst, hrest⟩ := buildAll_cons hbuild
    obtain ⟨hn₁, hn⟩ := forall_mem_cons.mp hn
    obtain ⟨hvoteless₁, hvoteless⟩ := forall_mem_cons.mp hvoteless
    obtain ⟨hsigners, -, hstates⟩ := buildSnapshots_spec h hn₁ hfirst
    obtain ⟨hstates', hsigners'⟩ := ih hn hvoteless (hstates hvoteless₁ ▸ h) hrest
    refine ⟨hstates'.trans (hstates hvoteless₁), fun _ => ?_⟩
    by_cases hempty : branch = []
    · subst hempty
      obtain rfl := (Prod.mk.inj hrest).1
      exact hsigners
    · rw [hsigners' hempty, hsigners, rtake_append_rtake (by omega), append_assoc]
      rfl

namespace NewBlock

variable {a : Nat} (h : NewBlock config chain s a branch s')
include h

theorem ne_nil : branch ≠ [] := by
  rintro rfl
  obtain ⟨header, hlast, -⟩ := h.called
  cases hlast

theorem lt_number {header : BlockHeader} (hmem : header ∈ branch) : a < header.number := by
  have hnumber := mem_map_of_mem (f := (·.number)) hmem
  rw [h.numbers, mem_range'_1] at hnumber
  exact hnumber.1

theorem buildAll_eq :
    buildAll config branch (cliqueDeleteSnapshots config (a + 1) s) = (s', .ok ()) := by
  obtain ⟨header, hlast, hcall⟩ := h.called
  have hnumber : header.number = a + branch.length := by
    have hmap := congrArg List.getLast? h.numbers
    rw [getLast?_map, hlast, getLast?_range'] at hmap
    have hpos := List.length_pos_iff.mpr h.ne_nil
    rw [if_neg hpos.ne'] at hmap
    have hsome := some.inj hmap
    dsimp only at hsome
    omega
  have hheaders : (List.range' (a + 1) branch.length).map
      (canonicalHeader (chain.take a ++ branch) header) = branch := by
    refine ext_getElem (by simp) fun i hi hi' => ?_
    have htake : (chain.take a).length = a := length_take_of_le h.ancestor
    simp [canonicalHeader, htake, hi']
  unfold newBlock at hcall
  dsimp only at hcall
  rw [hnumber, Nat.add_sub_cancel_left] at hcall
  exact hheaders ▸ hcall

end NewBlock

/-! ## Runs -/

theorem InForce.unique {states : List CliqueSignerState} {n' : Nat} {active' : List Address}
    (h : InForce states n active) (h' : InForce states n' active') : active = active' := by
  obtain ⟨m, -, older, hstates⟩ := h.last
  obtain ⟨m', -, older', hstates'⟩ := h'.last
  have hlast := congrArg List.getLast? (hstates.symm.trans hstates')
  rw [getLast?_concat, getLast?_concat] at hlast
  exact (Prod.mk.inj (some.inj hlast)).2

/-- The block signers are those of the last blocks, as many as the limit of the last block. -/
structure Recorded (config : CliqueConfig) (chain : List BlockHeader) (s : State)
    (active : List Address) (limit : Nat) : Prop where
  numbers : chain.map (·.number) = List.range' 1 chain.length
  /-- The signers have been in force since the last vote. -/
  inForce : ∀ n ≤ chain.length, (∀ header ∈ chain.drop n, header.Voteless config) →
    InForce s.latestSignerStates n active
  signers : s.latestBlockSigners = (chain.map (·.entry)).rtake limit
  /-- The limit for the next block is at most one higher. -/
  grown : active.length / 2 ≤ limit
  voteless : ∀ header ∈ chain.getLast?, header.Voteless config → limit = active.length / 2 + 1

namespace Recorded

variable {limit a : Nat}

theorem genesis (config : CliqueConfig) (genesisSigners : List Address) :
    Recorded config [] (genesisInit config genesisSigners) genesisSigners
      (genesisSigners.length / 2) where
  numbers := rfl
  inForce _ _ _ := (InForce.genesis config genesisSigners).mono (Nat.zero_le _)
  signers := by
    rw [genesisInit, (trimVotes_fields _).2, (cliqueUpdateSignerStates_fields _ _).2, map_nil,
      rtake_nil]
    rfl
  grown := le_refl _
  voteless := nofun

section

variable (h : Recorded config chain s active limit)
include h

theorem inForce_head : InForce s.latestSignerStates chain.length active :=
  h.inForce chain.length (le_refl _) (by rw [drop_length]; exact nofun)

theorem numbers_le : ∀ b ∈ s.latestBlockSigners, b.1 ≤ chain.length := by
  intro b hb
  rw [h.signers] at hb
  obtain ⟨header, hmem, rfl⟩ := mem_map.mp (mem_of_mem_drop hb)
  have hnumber := mem_map_of_mem (f := (·.number)) hmem
  rw [h.numbers, mem_range'_1] at hnumber
  exact le_of_lt_succ (hnumber.2.trans_eq (Nat.add_comm 1 _))

theorem extend (hnumber : header.number = chain.length + 1)
    (hbuild : cliqueBuildSnapshots config header
      (cliqueDeleteSnapshots config (chain.length + 1) s) = (s', .ok ())) :
    ∃ active' limit', Recorded config (chain ++ [header]) s' active' limit' := by
  have hlt : chain.length < header.number := hnumber ▸ lt_succ_self _
  obtain ⟨hforce, hkept⟩ := deleteSnapshots_spec config h.inForce_head (le_succ _)
  rw [List.filter_eq_self.mpr fun b hb => decide_eq_true (le_succ_of_le (h.numbers_le b hb)),
    h.signers] at hkept
  obtain ⟨hsigners, ⟨active', hlength, hforce'⟩, hstates⟩ := buildSnapshots_spec hforce hlt hbuild
  rw [hkept, rtake_append_rtake (succ_le_succ h.grown)] at hsigners
  have hnumbers : (chain ++ [header]).map (·.number) =
      List.range' 1 (chain ++ [header]).length := by
    rw [map_append, h.numbers, length_append, ← range'_append_1, Nat.add_comm 1,
      ← hnumber]
    rfl
  have hrecorded : s'.latestBlockSigners =
      ((chain ++ [header]).map (·.entry)).rtake (active.length / 2 + 1) := by
    rw [map_append]
    exact hsigners
  by_cases hvoteless : header.Voteless config
  · refine ⟨active, _, hnumbers, fun n hn hdrop => ?_, hrecorded, le_succ _, fun _ _ _ => rfl⟩
    rw [hstates hvoteless]
    rcases Nat.lt_or_ge chain.length n with hlt | hle
    · exact hforce.mono hlt.le
    · refine (deleteSnapshots_spec config (h.inForce n hle fun header hmem => hdrop header ?_)
        (le_succ_of_le hle)).1
      rw [drop_append_of_le_length hle]
      exact mem_append_left _ hmem
  · refine ⟨active', _, hnumbers, fun n hn hdrop => ?_, hrecorded, by omega, fun last hlast h => ?_⟩
    · have hall : chain.length < n := by
        by_contra hle
        refine hvoteless (hdrop header ?_)
        rw [drop_append_of_le_length (Nat.le_of_not_lt hle)]
        exact mem_append_right _ mem_cons_self
      exact hforce'.mono (hnumber ▸ hall)
    · rw [getLast?_concat] at hlast
      exact absurd (some.inj hlast ▸ h) hvoteless

theorem reorganise (hstep : NewBlock config chain s a branch s') (ha : a < chain.length)
    (hlong : LongEnough chain s a branch) :
    ∃ active' limit', Recorded config (chain.take a ++ branch) s' active' limit' := by
  have htake : (chain.take a).length = a := length_take_of_le ha.le
  have hold : ∀ header ∈ chain.drop a, header.Voteless config := fun header hmem =>
    hstep.voteless ha header (mem_append_left _ hmem)
  have hnew : ∀ header ∈ branch, header.Voteless config := fun header hmem =>
    hstep.voteless ha header (mem_append_right _ hmem)
  have hforce := h.inForce a ha.le hold
  obtain ⟨hforce', hkept⟩ := deleteSnapshots_spec config hforce (le_succ a)
  obtain ⟨hstates, hsigners⟩ := buildAll_voteless (fun _ => hstep.lt_number) hnew hforce'
    hstep.buildAll_eq
  have hsigners := hsigners hstep.ne_nil
  have hpos := List.length_pos_iff.mpr hstep.ne_nil
  refine ⟨active, active.length / 2 + 1, ?_, fun n hn hdrop => ?_, ?_, le_succ _,
    fun _ _ _ => rfl⟩
  · rw [map_append, map_take, h.numbers, hstep.numbers, take_range'_of_length_ge ha.le,
      length_append, htake, ← range'_append_1, Nat.add_comm 1 a]
  · rw [hstates]
    rcases Nat.lt_or_ge a n with hlt | hle
    · exact hforce'.mono hlt.le
    · refine (deleteSnapshots_spec config (h.inForce n (hle.trans ha.le) fun header hmem => ?_)
        (le_succ_of_le hle)).1
      rw [← take_append_drop a chain, drop_append_of_le_length (htake.symm ▸ hle)] at hmem
      rcases mem_append.mp hmem with hmem | hmem
      · refine hdrop header ?_
        rw [drop_append_of_le_length (htake.symm ▸ hle)]
        exact mem_append_left _ hmem
      · exact hold header hmem
  · rw [hsigners, hkept, map_append]
    rcases hlong ha with hlimit | ⟨rfl, hfirst⟩
    · have hle := hlimit (active.length / 2 + 1) (by
        rw [cliqueSignerLimit, hforce.activeSigners (Nat.lt_add_of_pos_right hpos)]
        rfl)
      rw [rtake_append_right _ (by simpa using hle),
        rtake_append_right _ (by simpa using hle)]
    · rw [filter_eq_nil_iff.mpr fun b hb hle =>
        absurd (of_decide_eq_true hle) (Nat.not_le.mpr (hfirst b hb))]
      rfl

theorem step (hstep : NewBlock config chain s a branch s') (hlong : LongEnough chain s a branch) :
    ∃ active' limit', Recorded config (chain.take a ++ branch) s' active' limit' := by
  rcases hstep.ancestor.lt_or_eq with ha | rfl
  · exact h.reorganise hstep ha hlong
  · obtain ⟨header, rfl⟩ := List.length_eq_one_iff.mp (hstep.extends_head rfl)
    obtain ⟨t, hbuild, hrest⟩ := buildAll_cons hstep.buildAll_eq
    obtain rfl := (Prod.mk.inj hrest).1
    rw [take_length]
    exact h.extend (by simpa using hstep.numbers) hbuild

end

theorem run {Meets : List BlockHeader → State → Nat → List BlockHeader → Prop}
    (hmeets : ∀ chain s a branch, Meets chain s a branch → LongEnough chain s a branch)
    {start : List BlockHeader} {s₀ : State} (h : Recorded config start s₀ active limit)
    (hsteps : Steps config Meets start s₀ chain s) :
    ∃ active' limit', Recorded config chain s active' limit' := by
  induction hsteps with
  | refl => exact ⟨active, limit, h⟩
  | newBlock _ hmeet hstep ih =>
    obtain ⟨active', limit', h'⟩ := ih
    exact h'.step hstep (hmeets _ _ _ _ hmeet)

end Recorded

/-! ## The rule -/

/-- The signers of the last `k` blocks. -/
def recentSigners (chain : List BlockHeader) (k : Nat) : List Address :=
  (chain.rtake k).map (·.signer)

theorem mem_recentSigners_mono {k k' : Nat} (h : k ≤ k') {signer : Address}
    (hmem : signer ∈ recentSigners chain k) : signer ∈ recentSigners chain k' :=
  ((drop_sublist_drop_left chain (Nat.sub_le_sub_left h chain.length)).map _).subset hmem

/-- The rule looks at the recorded blocks, without the oldest one where there are enough. -/
theorem Recorded.check {limit : Nat} (h : Recorded config chain s active limit)
    (hnumber : header.number = chain.length + 1) :
    cliqueCheckRecentlySigned header s = .ok (decide (header.signer ∈ recentSigners chain
      (s.latestBlockSigners.length -
        if s.latestBlockSigners.length < active.length / 2 + 1 then 0 else 1))) := by
  have hactive : cliqueActiveSigners header.number s = .ok active :=
    h.inForce_head.activeSigners (by omega)
  obtain ⟨dropped, hdropped⟩ : ∃ dropped,
      dropped = if s.latestBlockSigners.length < active.length / 2 + 1 then 0 else 1 := ⟨_, rfl⟩
  have hle : dropped ≤ s.latestBlockSigners.length := by
    rw [hdropped]
    split <;> omega
  have hlength : s.latestBlockSigners.length = min limit chain.length := by
    rw [h.signers, List.rtake, length_drop, length_map]
    omega
  have hdrop : s.latestBlockSigners.drop dropped =
      (chain.rtake (s.latestBlockSigners.length - dropped)).map (·.entry) := by
    have hindex : chain.length - limit + dropped =
        chain.length - (s.latestBlockSigners.length - dropped) := by omega
    rw [List.rtake, ← hindex, h.signers, List.rtake, drop_drop, map_drop, length_map]
  rw [← hdropped]
  rcases Nat.eq_zero_or_pos chain.length with hempty | hpos
  · obtain rfl := length_eq_zero_iff.mp hempty
    unfold cliqueCheckRecentlySigned
    rw [if_pos (by simp [hnumber])]
    simp [recentSigners, List.rtake]
    rfl
  · have hlast : ∀ b ∈ (s.latestBlockSigners.drop dropped).getLast?, b.1 + 1 = header.number := by
      intro b hb
      rw [hdrop, getLast?_map, List.rtake, getLast?_drop] at hb
      split at hb
      · cases hb
      · obtain ⟨last, hlast, rfl⟩ := map_eq_some_iff.mp hb
        have hnumbers := congrArg List.getLast? h.numbers
        rw [getLast?_map, hlast, getLast?_range', if_neg hpos.ne'] at hnumbers
        have hsome : last.number = _ := some.inj hnumbers
        change last.number + 1 = header.number
        omega
    have hfirst : (header.isGenesis || decide (header.number = 1)) = false :=
      Bool.or_eq_false_iff.mpr ⟨decide_eq_false (by omega), decide_eq_false (by omega)⟩
    have hseen : 1 < ((s.latestBlockSigners.drop dropped ++ [(header.number, header.signer)]).filter
        (·.2 = header.signer)).length ↔ header.signer ∈ recentSigners chain
          (s.latestBlockSigners.length - dropped) := by
      rw [hdrop, filter_append, length_append, recentSigners]
      simp [length_pos_iff_exists_mem, BlockHeader.entry, eq_comm]
    unfold cliqueCheckRecentlySigned cliqueSignerLimit
    rw [hfirst, hactive]
    simp only [bind, Except.bind, pure, Except.pure, Bool.false_eq_true, if_false, ← hdropped]
    split
    · rename_i n signer hget
      rw [if_neg (not_not.mpr (hlast _ hget))]
      simp only [hseen]
    · simp only [hseen]

/-! ## The condition -/

variable {genesisSigners : List Address} {limit : Nat}

/-- The rule agrees with the last blocks as many as half of the signers, unless the list is
longer: the signer of a block before them is then counted as well. -/
theorem Recorded.check_iff (h : Recorded config chain s active limit)
    (hnumber : header.number = chain.length + 1) : cliqueCheckRecentlySigned header s =
        .ok (decide (header.signer ∈ recentSigners chain (active.length / 2))) ↔
      (header.signer ∈ recentSigners chain (s.latestBlockSigners.length - 1) →
        header.signer ∈ recentSigners chain (active.length / 2)) := by
  have hlength : s.latestBlockSigners.length = min limit chain.length := by
    rw [h.signers, List.rtake, length_drop, length_map]
    omega
  have hgrown := h.grown
  rw [h.check hnumber, Except.ok.injEq, decide_eq_decide]
  split
  · -- all recorded blocks, which are just enough or the whole chain
    have hsame : recentSigners chain (s.latestBlockSigners.length - 0) =
        recentSigners chain (active.length / 2) := by
      unfold recentSigners List.rtake
      have : chain.length - (s.latestBlockSigners.length - 0) =
          chain.length - active.length / 2 := by omega
      rw [this]
    rw [hsame]
    exact iff_of_true Iff.rfl (mem_recentSigners_mono (by omega))
  · exact ⟨Iff.mp, fun hmp => ⟨hmp, mem_recentSigners_mono (by omega)⟩⟩

/-- The blocks stay above the block `a₀` and have no votes. -/
def Above (config : CliqueConfig) (a₀ : Nat) (_ : List BlockHeader) (_ : State) (a : Nat)
    (branch : List BlockHeader) : Prop :=
  a₀ ≤ a ∧ ∀ header ∈ branch, header.Voteless config

/-- Blocks without votes on top of the head. -/
def Extends (config : CliqueConfig) (chain : List BlockHeader) (_ : State) (a : Nat)
    (branch : List BlockHeader) : Prop :=
  a = chain.length ∧ ∀ header ∈ branch, header.Voteless config

theorem InForce.above {start : List BlockHeader} {s₀ : State} {a₀ : Nat}
    (h : InForce s₀.latestSignerStates a₀ active)
    (hsteps : Steps config (Above config a₀) start s₀ chain s) :
    InForce s.latestSignerStates a₀ active := by
  induction hsteps with
  | refl => exact h
  | newBlock _ hmeets hstep ih =>
    have hforce := (deleteSnapshots_spec config ih (le_succ_of_le hmeets.1)).1
    have hbuild := buildAll_voteless (fun _ hmem => hmeets.1.trans_lt (hstep.lt_number hmem))
      hmeets.2 hforce hstep.buildAll_eq
    exact hbuild.1 ▸ hforce

theorem Extends.above {start : List BlockHeader} {s₀ : State}
    (hsteps : Steps config (Extends config) start s₀ chain s) :
    Steps config (Above config start.length) start s₀ chain s ∧ start.length ≤ chain.length := by
  induction hsteps with
  | refl => exact ⟨.refl, le_refl _⟩
  | newBlock _ hmeets hstep ih =>
    obtain ⟨rfl, hvoteless⟩ := hmeets
    refine ⟨.newBlock ih.1 ⟨ih.2, hvoteless⟩ hstep, ?_⟩
    rw [take_length, length_append]
    exact ih.2.trans (Nat.le_add_right _ _)

/-- While new branches are long enough, the block signers after a reorganisation are those of a
chain that never had the abandoned branch. -/
theorem Recorded.signers_eq {start old : List BlockHeader} {s₀ s₁ : State}
    (h₀ : Recorded config start s₀ active limit)
    (hold : Steps config (Above config start.length) start s₀ (start ++ old) s)
    (h : ∃ active' limit', Recorded config (start ++ old) s active' limit') (hne : old ≠ [])
    (hstep : NewBlock config (start ++ old) s start.length branch s')
    (hlong : LongEnough (start ++ old) s start.length branch)
    (hfresh : Steps config (Extends config) start s₀ (start ++ branch) s₁) :
    s'.latestBlockSigners = s₁.latestBlockSigners := by
  have hlt : start.length < (start ++ old).length := by
    have := List.length_pos_iff.mpr hne
    rw [length_append]
    omega
  have hvoteless : ∀ header ∈ branch, header.Voteless config := fun header hmem =>
    hstep.voteless hlt header (mem_append_right _ hmem)
  obtain ⟨active', limit', h⟩ := h
  obtain ⟨a, l, hs'⟩ := h.step hstep hlong
  obtain ⟨a₁, l₁, hs₁⟩ := h₀.run (fun _ _ _ _ hmeets hlt => absurd hmeets.1 hlt.ne) hfresh
  rw [take_left] at hs'
  -- the same signers are in force, so the limit for the last block was the same
  have hforce := h₀.inForce_head
  have hs'force := hforce.above (.newBlock hold ⟨le_refl _, hvoteless⟩ hstep)
  have hs₁force := hforce.above (Extends.above hfresh).1
  have hdrop : ∀ header ∈ (start ++ branch).drop start.length, header.Voteless config := by
    rwa [drop_left]
  have hle : start.length ≤ (start ++ branch).length := by simp
  obtain rfl := hs'force.unique (hs'.inForce _ hle hdrop)
  obtain rfl := hs₁force.unique (hs₁.inForce _ hle hdrop)
  obtain ⟨header, hlast, -⟩ := hstep.called
  have hmem : header ∈ (start ++ branch).getLast? := by
    rw [getLast?_append, hlast]
    rfl
  have hheader := hvoteless header (mem_of_getLast? hlast)
  rw [hs'.signers, hs₁.signers, hs'.voteless header hmem hheader, hs₁.voteless header hmem hheader]

/-- In every run whose reorganisations have new branches that are long enough: the rule stops a
next block just where it should, unless its signer has signed a block that is recorded from
before the limit shrank; and a reorganisation leaves the snapshot of the new chain. -/
theorem recentSigners_run
    (hrun : Steps config LongEnough [] (genesisInit config genesisSigners) chain s) :
    (∀ header active, header.number = chain.length + 1 →
      cliqueActiveSigners header.number s = .ok active → (cliqueCheckRecentlySigned header s =
          .ok (decide (header.signer ∈ recentSigners chain (active.length / 2))) ↔
        (header.signer ∈ recentSigners chain (s.latestBlockSigners.length - 1) →
          header.signer ∈ recentSigners chain (active.length / 2)))) ∧
    (∀ start old s₀ branch s' s₁, chain = start ++ old → old ≠ [] →
      Steps config LongEnough [] (genesisInit config genesisSigners) start s₀ →
      Steps config (Above config start.length) start s₀ chain s →
      NewBlock config chain s start.length branch s' → LongEnough chain s start.length branch →
      Steps config (Extends config) start s₀ (start ++ branch) s₁ →
      s'.latestBlockSigners = s₁.latestBlockSigners) := by
  have hgenesis := Recorded.genesis config genesisSigners
  obtain ⟨active', limit, h⟩ := hgenesis.run (fun _ _ _ _ => id) hrun
  constructor
  · intro header active hnumber hactive
    obtain rfl : active' = active := by
      have := h.inForce_head.activeSigners (show chain.length < header.number by omega)
      exact ok.inj (this.symm.trans hactive)
    exact h.check_iff hnumber
  · rintro start old s₀ branch s' s₁ rfl hne hstart hold hstep hlong hfresh
    obtain ⟨active₀, limit₀, h₀⟩ := hgenesis.run (fun _ _ _ _ => id) hstart
    exact h₀.signers_eq hold ⟨active', limit, h⟩ hne hstep hlong hfresh

namespace Sample

instance (config : CliqueConfig) (header : BlockHeader) : Decidable (header.Voteless config) :=
  inferInstanceAs (Decidable (_ ∨ _))

def five : List Address := [1, 2, 3, 4, 5].map sampleAddress

/-- A block of signer `x` without a vote. -/
def plain (number : Nat) (x : UInt8) : BlockHeader :=
  ⟨number, Address.zero, CLIQUE_NONCE_DROP, sampleAddress x, []⟩

def next (chain : List BlockHeader) (s : State) (a : Nat) (header : BlockHeader) : State :=
  (newBlock sampleConfig (canonicalHeader (chain.take a ++ [header]) header) header (some a) s).1

theorem newBlock_next {chain : List BlockHeader} {s : State} {a : Nat} {header : BlockHeader}
    (hancestor : a ≤ chain.length) (hnumber : header.number = a + 1)
    (hvoteless : ∀ b ∈ chain.drop a ++ [header], b.Voteless sampleConfig)
    (hcalled : (newBlock sampleConfig (canonicalHeader (chain.take a ++ [header]) header) header
      (some a) s).2 = .ok ()) : NewBlock sampleConfig chain s a [header] (next chain s a header) :=
  ⟨hancestor, by simp [hnumber], fun _ => rfl, fun _ => hvoteless, header, rfl, Prod.ext rfl hcalled⟩

def first : State := next [] (genesisInit sampleConfig five) 0 (plain 1 1)
def second : State := next [plain 1 1] first 1 (plain 2 2)
def third : State := next [plain 1 1, plain 2 2] second 2 (plain 3 3)

/-- Signer 4 takes the place of signer 3. -/
def replaced : State := next [plain 1 1, plain 2 2, plain 3 3] third 2 (plain 3 4)

theorem steps_second {Meets : List BlockHeader → State → Nat → List BlockHeader → Prop}
    (h : ∀ chain s branch, Meets chain s chain.length branch) :
    Steps sampleConfig Meets [] (genesisInit sampleConfig five) [plain 1 1, plain 2 2] second :=
  have hone : Steps sampleConfig Meets [] (genesisInit sampleConfig five) [plain 1 1] first :=
    .newBlock .refl (h [] _ _) (newBlock_next (by decide) rfl (by decide) (by decide +kernel))
  .newBlock hone (h [plain 1 1] _ _)
    (newBlock_next (by decide) rfl (by decide) (by decide +kernel))

/-- The signer of block 1 may not sign block 3. -/
theorem first_signer_stopped : cliqueCheckRecentlySigned (plain 3 1) second = .ok true := by
  have hrun : Steps sampleConfig LongEnough [] (genesisInit sampleConfig five) _ second :=
    steps_second fun _ _ _ h => absurd h (lt_irrefl _)
  exact ((recentSigners_run hrun).1 (plain 3 1) five rfl (by decide +kernel)).mpr fun _ => by decide

/-- After a reorganisation of one block the signer of block 2 may sign block 4. -/
theorem second_signer_passes :
    Steps sampleConfig (fun _ _ _ _ => True) [] (genesisInit sampleConfig five)
        [plain 1 1, plain 2 2, plain 3 4] replaced ∧ cliqueActiveSigners 4 replaced = .ok five ∧
      sampleAddress 2 ∈ recentSigners [plain 1 1, plain 2 2, plain 3 4] (five.length / 2) ∧
      cliqueCheckRecentlySigned (plain 4 2) replaced = .ok false := by
  refine ⟨?_, by decide +kernel, by decide, by decide +kernel⟩
  have hthird : NewBlock sampleConfig [plain 1 1, plain 2 2] second 2 [plain 3 3] third :=
    newBlock_next (by decide) rfl (by decide) (by decide +kernel)
  have hreplaced : NewBlock sampleConfig [plain 1 1, plain 2 2, plain 3 3] third 2 [plain 3 4]
      replaced :=
    newBlock_next (by decide) rfl (by decide) (by decide +kernel)
  have htwo : Steps sampleConfig (fun _ _ _ _ => True) [] (genesisInit sampleConfig five) _ second :=
    steps_second fun _ _ _ => trivial
  exact Steps.newBlock (Steps.newBlock htwo trivial hthird) trivial hreplaced

end Sample

end CliqueConsensus
