-- SUMMARY: The clique consensus: signer states, the history of votes, and what a new block does with them.
import TsEthereum.Utils.Account

/-!
# CliqueConsensus

`consensus/clique.ts`. A header is taken with the signer that its seal recovers to and the
signers in its extra data. Methods change the object before they may throw, so a step
returns the object next to the outcome. What is written to the database is not modelled:
it is read once, in `setup`.
-/

/-- `toType(address.toString(), TypeOutput.BigInt)`. -/
def Address.value (address : Address) : Int := bytesToBigInt address.bytes

namespace CliqueConsensus

/-! ## Data -/

/-- Magic nonces: to vote on adding a signer, and on removing one. -/
def CLIQUE_NONCE_AUTH : Bytes := List.replicate 8 0xff
def CLIQUE_NONCE_DROP : Bytes := List.replicate 8 0

def CLIQUE_SIGNER_HISTORY_BLOCK_LIMIT : Int := 200

structure CliqueConfig where
  epoch : Nat
  epoch_pos : 0 < epoch

structure BlockHeader where
  number : Nat
  coinbase : Address
  nonce : Bytes
  /-- `cliqueSigner(header)`. -/
  signer : Address
  /-- The signers of an epoch transition block. -/
  checkpointSigners : List Address

abbrev CliqueSignerState := Nat × List Address

structure CliqueVote where
  blockNumber : Nat
  signer : Address
  beneficiary : Address
  cliqueNonce : Bytes

structure State where
  latestSignerStates : List CliqueSignerState
  latestVotes : List CliqueVote
  latestBlockSigners : List (Nat × Address)

def State.init : State := ⟨[], [], []⟩

def BlockHeader.isGenesis (header : BlockHeader) : Bool := header.number = 0

def cliqueIsEpochTransition (config : CliqueConfig) (header : BlockHeader) : Bool :=
  header.number % config.epoch = 0

/-- The last block number that was a multiple of the epoch. -/
def CliqueConfig.lastEpochBlockNumber (config : CliqueConfig) (n : Nat) : Nat := n - n % config.epoch

/-! ## Signers -/

def cliqueActiveSigners (blockNum : Nat) (s : State) : Except String (List Address) :=
  if s.latestSignerStates.isEmpty then .ok []
  else
    match s.latestSignerStates.reverse.find? (·.1 < blockNum) with
    | some state => .ok state.2
    | none => .error s!"Could not load signers for block {blockNum}"

def cliqueSignerLimit (blockNum : Nat) (s : State) : Except String Nat := do
  let signers ← cliqueActiveSigners blockNum s
  return signers.length / 2 + 1

/-- The number of the last entry of the block signers, unless it counts as false. -/
def State.lastBlockNumber (s : State) : Option Nat :=
  match s.latestBlockSigners.getLast? with
  | some (n + 1, _) => some (n + 1)
  | _ => none

/-- The end of `cliqueUpdateSignerStates`: at least one item stays. -/
def State.trimSignerStates (s : State) : State :=
  match s.lastBlockNumber with
  | some lastBlockNumber =>
    let blockLimit := lastBlockNumber - CLIQUE_SIGNER_HISTORY_BLOCK_LIMIT
    let kept := s.latestSignerStates.filter fun state => decide (blockLimit ≤ state.1)
    { s with
      latestSignerStates := if kept.isEmpty then s.latestSignerStates.getLast?.toList else kept }
  | none => s

def cliqueUpdateSignerStates (signerState : Option CliqueSignerState) (s : State) : State :=
  match signerState with
  | some signerState =>
    if s.latestSignerStates.any (·.1 = signerState.1) then s
    else
      State.trimSignerStates { s with
        latestSignerStates :=
          (s.latestSignerStates ++ [signerState]).insertionSort (fun a b => a.1 ≤ b.1) }
  | none => s.trimSignerStates

/-! ## Votes -/

/-- The signers of some votes, each once. -/
def votersOf (votes : List CliqueVote) : List Address :=
  votes.foldl (fun voters vote =>
    if (voters.filter (· = vote.signer)).length = 0 then voters ++ [vote.signer] else voters) []

/-- `beneficiaryVotesAUTH` and `beneficiaryVotesDROP`. -/
def beneficiaryVotes (config : CliqueConfig) (header : BlockHeader) (cliqueNonce : Bytes) (s : State) :
    List Address :=
  votersOf (s.latestVotes.filter fun vote =>
    decide (config.lastEpochBlockNumber header.number ≤ vote.blockNumber) &&
      decide (vote.signer ≠ header.signer) && decide (vote.beneficiary = header.coinbase) &&
      decide (vote.cliqueNonce = cliqueNonce))

/-- The vote of the block itself, which the second round counts. -/
def ownVote (header : BlockHeader) (cliqueNonce : Bytes) (second : Bool) : Nat :=
  if second && decide (header.nonce = cliqueNonce) then 1 else 0

def BlockHeader.vote (header : BlockHeader) : CliqueVote :=
  ⟨header.number, header.signer, header.coinbase, header.nonce⟩

def State.setVotes (s : State) (votes : List CliqueVote) : State := { s with latestVotes := votes }

/-- The AUTH analysis with a limit and a signer list, and the signers if there is a consensus. -/
def authVotes (config : CliqueConfig) (header : BlockHeader) (second : Bool) (limit : Nat)
    (activeSigners : List Address) (s : State) : State × Option (List Address) :=
  let numBeneficiaryVotesAUTH := (beneficiaryVotes config header CLIQUE_NONCE_AUTH s).length +
    ownVote header CLIQUE_NONCE_AUTH second
  if limit ≤ numBeneficiaryVotesAUTH then
    -- discard votes for added signer
    (s.setVotes (s.latestVotes.filter (·.beneficiary ≠ header.coinbase)),
      some ((activeSigners ++ [header.coinbase]).insertionSort (fun a b => a.value ≤ b.value)))
  else (s, none)

/-- The DROP analysis. -/
def dropVotes (config : CliqueConfig) (header : BlockHeader) (second : Bool) (limit : Nat)
    (activeSigners : List Address) (s : State) : State × Option (List Address) :=
  let numBeneficiaryVotesDROP := (beneficiaryVotes config header CLIQUE_NONCE_DROP s).length +
    ownVote header CLIQUE_NONCE_DROP second
  if limit ≤ numBeneficiaryVotesDROP then
    -- discard votes from removed signer and for removed signer
    (s.setVotes (s.latestVotes.filter fun vote =>
        decide (vote.signer ≠ header.coinbase) && decide (vote.beneficiary ≠ header.coinbase)),
      some (activeSigners.filter (· ≠ header.coinbase)))
  else (s, none)

/-- One round, with the new signer list if there is a consensus. -/
def voteRound (config : CliqueConfig) (header : BlockHeader) (second : Bool) (s : State) :
    Except String (State × Option (List Address)) := do
  let limit ← cliqueSignerLimit header.number s
  let activeSigners ← cliqueActiveSigners header.number s
  let (s, added) := authVotes config header second limit activeSigners s
  let (s, dropped) := dropVotes config header second limit (added.getD activeSigners) s
  let s := if second then s else s.setVotes (s.latestVotes ++ [header.vote])
  return (s, dropped.or added)

/-- The end of `cliqueUpdateVotes`. -/
def State.trimVotes (config : CliqueConfig) (s : State) : State :=
  match s.lastBlockNumber with
  | some lastBlockNumber =>
    let blockLimit :=
      config.lastEpochBlockNumber lastBlockNumber - CLIQUE_SIGNER_HISTORY_BLOCK_LIMIT
    s.setVotes (s.latestVotes.filter fun vote => decide (blockLimit ≤ vote.blockNumber))
  | none => s

def cliqueUpdateVotes (config : CliqueConfig) (header : Option BlockHeader) (s : State) :
    Except String State :=
  match header with
  | none => .ok (s.trimVotes config)
  | some header =>
    if header.coinbase = Address.zero then .ok (s.trimVotes config)
    else do
      match ← voteRound config header false s with
      | (s, some signers) => return cliqueUpdateSignerStates (some (header.number, signers)) s
      | (s, none) =>
        match ← voteRound config header true s with
        | (s, some signers) => return cliqueUpdateSignerStates (some (header.number, signers)) s
        | (s, none) => return s.trimVotes config

/-! ## Blocks -/

/-- `cliqueUpdateLatestBlockSigners`: the signer has been added when the limit is not found. -/
def cliqueUpdateLatestBlockSigners (header : BlockHeader) (s : State) : State × Except String Unit :=
  if header.isGenesis then (s, .ok ())
  else
    let added := { s with latestBlockSigners := s.latestBlockSigners ++ [(header.number, header.signer)] }
    match cliqueSignerLimit header.number added with
    | .ok limit =>
      let length := added.latestBlockSigners.length
      (if limit < length then
          { added with latestBlockSigners := added.latestBlockSigners.drop (length - limit) }
        else added, .ok ())
    | .error e => (added, .error e)

/-- `_cliqueDeleteSnapshots`. -/
def cliqueDeleteSnapshots (config : CliqueConfig) (blockNumber : Nat) (s : State) : State :=
  let s := cliqueUpdateSignerStates none
    { s with latestSignerStates := s.latestSignerStates.filter (·.1 ≤ blockNumber) }
  let s := (s.setVotes (s.latestVotes.filter (·.blockNumber ≤ blockNumber))).trimVotes config
  { s with latestBlockSigners := s.latestBlockSigners.filter (·.1 ≤ blockNumber) }

/-- `_cliqueBuildSnapshots`. -/
def cliqueBuildSnapshots (config : CliqueConfig) (header : BlockHeader) (s : State) :
    State × Except String Unit :=
  if cliqueIsEpochTransition config header then cliqueUpdateLatestBlockSigners header s
  else
    match cliqueUpdateVotes config (some header) s with
    | .ok s => cliqueUpdateLatestBlockSigners header s
    | .error e => (s, .error e)

/-- The loop of `newBlock`, which ends with the first throw. -/
def buildAll (config : CliqueConfig) : List BlockHeader → State → State × Except String Unit
  | [], s => (s, .ok ())
  | header :: headers, s =>
    match cliqueBuildSnapshots config header s with
    | (s, .ok ()) => buildAll config headers s
    | (s, .error e) => (s, .error e)

def newBlock (config : CliqueConfig) (getCanonicalHeader : Nat → BlockHeader) (header : BlockHeader)
    (commonAncestor : Option Nat) (s : State) : State × Except String Unit :=
  match commonAncestor with
  | some number =>
    buildAll config ((List.range' (number + 1) (header.number - number)).map getCanonicalHeader)
      (cliqueDeleteSnapshots config (number + 1) s)
  | none => (s, .ok ())

def genesisInit (config : CliqueConfig) (genesisSigners : List Address) : State :=
  (cliqueUpdateSignerStates (some (0, genesisSigners)) .init).trimVotes config

/-- `newBlock` for a header on top of the head: the common ancestor is its parent. -/
def append (config : CliqueConfig) (s : State) (header : BlockHeader) : State :=
  (newBlock config (fun _ => header) header (some (header.number - 1)) s).1

/-! ## Validation -/

def cliqueVerifySignature (header : BlockHeader) (signerList : List Address) : Bool :=
  signerList.any (· = header.signer)

def cliqueCheckRecentlySigned (header : BlockHeader) (s : State) : Except String Bool :=
  if header.isGenesis || header.number = 1 then return false
  else do
    let limit ← cliqueSignerLimit header.number s
    let signers := s.latestBlockSigners.drop (if s.latestBlockSigners.length < limit then 0 else 1)
    match signers.getLast? with
    | some (n, _) =>
      if n + 1 ≠ header.number then return false
    | none => pure ()
    let signers := signers ++ [(header.number, header.signer)]
    return 1 < (signers.filter (·.2 = header.signer)).length

/-- The first index whose checkpoint signer is not the active one. -/
def checkpointMismatch : List Address → List Address → Nat → Option (Nat × Address)
  | [], _, _ => none
  | c :: cs, active, i =>
    if active.head? = some c then checkpointMismatch cs active.tail (i + 1) else some (i, c)

def validateConsensus (config : CliqueConfig) (header : BlockHeader) (s : State) :
    Except String Unit := do
  let activeSigners ← cliqueActiveSigners header.number s
  if !cliqueVerifySignature header activeSigners then
    throw "invalid PoA block signature (clique)"
  if ← cliqueCheckRecentlySigned header s then
    throw "recently signed"
  if cliqueIsEpochTransition config header then
    match checkpointMismatch header.checkpointSigners activeSigners 0 with
    | some (i, cSigner) =>
      let address := cSigner.toString
      throw s!"checkpoint signer not found in active signers list at index {i}: {address}"
    | none => pure ()

end CliqueConsensus
