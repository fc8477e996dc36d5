-- SUMMARY: Transactions and hashes that a peer announces: what the pool fetches, what it forwards to other peers, and when it forwards only what it has added.
import TsEthereum.ExecutionClient.TxPool.Announcements

/-!
# Announced transactions

`sendTransactions`, `handleAnnouncedTxs` and `handleAnnouncedTxHashes` of
`service/txpool.ts`. Each handler runs `add` on the transactions one by one and
then forwards a list of them. The handlers differ in which list that is.
-/

open List

namespace TxPool

def TX_RETRIEVAL_LIMIT : Nat := 256
def MIN_BROADCAST_PEERS : Nat := 2

/-- A transaction of a batch, with `serialize().byteLength` and whether its `add`
resolved. -/
structure AnnouncedTx where
  tx : TypedTransaction
  byteLength : Nat
  added : Bool
  deriving DecidableEq

/-- What `getPooledTransactions` comes to. -/
inductive Fetched where
  | rejected
  | resolved (txs : List AnnouncedTx)

/-- What a handler has sent to the peers. -/
structure Forwarded where
  knownByPeer : KnownByPeer
  transactions : List (PeerId × List TypedTransaction)
  announcements : List (PeerId × Announcement)

def hashesOf (txs : List AnnouncedTx) : List UnprefixedHash := txs.map (fun a => a.tx.hash)

/-- The columns of some transactions. -/
def columnsOf (txs : List AnnouncedTx) : TxHashes where
  types := txs.map (fun a => a.tx.type.number)
  sizes := txs.map AnnouncedTx.byteLength
  hashes := hashesOf txs

/-! ## The source -/

/-- One round of the loop of `sendTransactions`. A `request` that is rejected
marks the records later and sends nothing again. -/
def sendTransactionsTo (now : Int) (txs : List TypedTransaction)
    (acc : KnownByPeer × List (PeerId × List TypedTransaction)) (peer : Peer) :
    KnownByPeer × List (PeerId × List TypedTransaction) :=
  let (known, newHashes) := addToKnownByPeer now acc.1 (txs.map TypedTransaction.hash) peer
  let newTxs := txs.filter (fun tx => newHashes.contains tx.hash)
  if newTxs.length > 0 then
    match peer.eth with
    | none => (known, acc.2)
    | some _ => (known, acc.2 ++ [(peer.id, newTxs)])
  else (known, acc.2)

def sendTransactions (now : Int) (known : KnownByPeer) (txs : List TypedTransaction)
    (peers : List Peer) : KnownByPeer × List (PeerId × List TypedTransaction) :=
  if txs.length = 0 ∨ peers.length = 0 then (known, [])
  else peers.foldl (sendTransactionsTo now txs) (known, [])

/-- `Math.max(MIN_BROADCAST_PEERS, Math.floor(Math.sqrt(numPeers)))`. -/
def numFullBroadcast (numPeers : Nat) : Nat := max MIN_BROADCAST_PEERS (Nat.sqrt numPeers)

section Handlers

-- what `peer.eth.send` throws for a message, if it does
variable (send : Peer → Announcement → Option SendError)

/-- The end of `handleAnnouncedTxs`: all of the batch to the first peers, and the
hashes of what was added to the others. -/
def forwardTxs (now : Int) (known : KnownByPeer) (txs : List AnnouncedTx) (peers : List Peer) :
    Forwarded :=
  let newTxHashes := columnsOf (txs.filter AnnouncedTx.added)
  let full := numFullBroadcast peers.length
  let (known, transactions) :=
    sendTransactions now known (txs.map AnnouncedTx.tx) (peers.take full)
  if full < peers.length then
    let (known, announcements) := sendNewTxHashes send now known newTxHashes (peers.drop full)
    ⟨known, transactions, announcements⟩
  else ⟨known, transactions, []⟩

/-- `handleAnnouncedTxs(txs, peer, peerPool)`, with `meanwhile` what other calls
do to the records while the `add`s are awaited. `none` when it rejects, which
`tx.hash()` of an unsigned transaction makes it do at once. -/
def handleAnnouncedTxs (now : Int) (running : Bool) (known : KnownByPeer)
    (meanwhile : KnownByPeer → KnownByPeer) (txs : List AnnouncedTx) (peer : Peer)
    (peers : List Peer) : Option Forwarded :=
  if !running || txs.length = 0 then some ⟨known, [], []⟩
  else if !txs.all (fun a => a.tx.signed) then none
  else
    let (known, _) := addToKnownByPeer now known (hashesOf txs) peer
    some (forwardTxs send now (meanwhile known) txs peers)

/-- The hashes that are neither being fetched nor handled. -/
def hashesToRequest (fetchingHashes : List UnprefixedHash) (handled : UnprefixedHash → Bool)
    (txHashes : List UnprefixedHash) : List UnprefixedHash :=
  txHashes.filter (fun txHash => !(fetchingHashes.contains txHash || handled txHash))

/-- What `handleAnnouncedTxHashes` leaves: the fetching list, the hashes it has
requested, and what it has forwarded, or `none` when it rejects. -/
structure HashesHandled where
  fetchingHashes : List UnprefixedHash
  requested : List UnprefixedHash
  forwarded : Option Forwarded

/-- `handleAnnouncedTxHashes(txHashes, peer, peerPool)`. The list is cut to
`TX_RETRIEVAL_LIMIT` for the request only. -/
def handleAnnouncedTxHashes (getPooledTransactions : Peer → List UnprefixedHash → Fetched)
    (now : Int) (running : Bool) (handled : UnprefixedHash → Bool)
    (fetchingHashes : List UnprefixedHash) (known : KnownByPeer)
    (meanwhile : KnownByPeer → KnownByPeer) (txHashes : List UnprefixedHash) (peer : Peer)
    (peers : List Peer) : HashesHandled :=
  if !running || txHashes.length = 0 then ⟨fetchingHashes, [], some ⟨known, [], []⟩⟩
  else
    let (known, _) := addToKnownByPeer now known txHashes peer
    let reqHashes := hashesToRequest fetchingHashes handled txHashes
    if reqHashes.length = 0 then ⟨fetchingHashes, [], some ⟨known, [], []⟩⟩
    else
      let fetching := fetchingHashes ++ reqHashes
      let fetched := fetching.filter (fun hash => !reqHashes.contains hash)
      match peer.eth with
      | none => ⟨fetched, reqHashes, some ⟨known, [], []⟩⟩
      | some _ =>
        match getPooledTransactions peer (reqHashes.take TX_RETRIEVAL_LIMIT) with
        | .rejected => ⟨fetching, reqHashes, none⟩
        | .resolved txs =>
          if !txs.all (fun a => a.tx.signed) then ⟨fetched, reqHashes, none⟩
          else
            -- the columns are of all transactions, added or not
            let (known, announcements) :=
              sendNewTxHashes send now (meanwhile known) (columnsOf txs) peers
            ⟨fetched, reqHashes, some ⟨known, [], announcements⟩⟩

end Handlers

/-! ## Sending transactions -/

theorem knownHashes_addToKnownByPeer (now : Int) (known : KnownByPeer)
    (txHashes : List UnprefixedHash) (peer : Peer) (id : PeerId) :
    knownHashes (addToKnownByPeer now known txHashes peer).1 id =
      if id = peer.id then
        knownHashes known id ++ fresh (knownHashes known id) txHashes
      else knownHashes known id := by
  rw [addToKnownByPeer_eq]
  unfold knownHashes
  rw [sentObjects_set]
  split
  · rename_i hid
    subst hid
    rw [map_append, map_map]
    exact congrArg _ (map_id _)
  · rfl

theorem sendTransactionsTo_known (now : Int) (txs : List TypedTransaction)
    (acc : KnownByPeer × List (PeerId × List TypedTransaction)) (peer : Peer) :
    (sendTransactionsTo now txs acc peer).1 =
      (addToKnownByPeer now acc.1 (txs.map TypedTransaction.hash) peer).1 := by
  unfold sendTransactionsTo
  simp only
  split
  · split <;> rfl
  · rfl

/-- One peer's round sends it the transactions that are new to it. -/
theorem sendTransactionsTo_sent (now : Int) (txs : List TypedTransaction)
    (acc : KnownByPeer × List (PeerId × List TypedTransaction)) (peer : Peer) (id : PeerId)
    (tx : TypedTransaction) :
    (∃ entry ∈ (sendTransactionsTo now txs acc peer).2, entry.1 = id ∧ tx ∈ entry.2) ↔
      (∃ entry ∈ acc.2, entry.1 = id ∧ tx ∈ entry.2) ∨
        (peer.id = id ∧ peer.eth.isSome ∧ tx ∈ txs ∧ tx.hash ∉ knownHashes acc.1 peer.id) := by
  have hnew : ∀ tx ∈ txs, (tx ∈ txs.filter (fun tx =>
      (fresh (knownHashes acc.1 peer.id) (txs.map TypedTransaction.hash)).contains tx.hash) ↔
        tx.hash ∉ knownHashes acc.1 peer.id) := by
    intro tx htx
    rw [mem_filter, contains_iff_mem, mem_fresh]
    exact ⟨fun h => h.2.2, fun h => ⟨htx, mem_map_of_mem htx, h⟩⟩
  unfold sendTransactionsTo
  rw [addToKnownByPeer_eq]
  simp only
  generalize hnewTxs : txs.filter (fun tx =>
    (fresh (knownHashes acc.1 peer.id) (txs.map TypedTransaction.hash)).contains tx.hash) = newTxs at hnew
  have hsub : ∀ tx ∈ newTxs, tx ∈ txs := fun tx h => mem_of_mem_filter (hnewTxs ▸ h)
  split
  · cases heth : peer.eth with
    | none => simp
    | some eth =>
      simp only [mem_append, mem_singleton, Option.isSome_some, true_and]
      constructor
      · rintro ⟨entry, hentry | rfl, hid, hmem⟩
        · exact Or.inl ⟨entry, hentry, hid, hmem⟩
        · exact Or.inr ⟨hid, hsub tx hmem, (hnew tx (hsub tx hmem)).mp hmem⟩
      · rintro (⟨entry, hentry, hid, hmem⟩ | ⟨hid, htx, hnot⟩)
        · exact ⟨entry, Or.inl hentry, hid, hmem⟩
        · exact ⟨_, Or.inr rfl, hid, (hnew tx htx).mpr hnot⟩
  · rename_i hlen
    have hnil : newTxs = [] := length_eq_zero_iff.mp (by omega)
    refine ⟨Or.inl, fun h => h.resolve_right ?_⟩
    rintro ⟨_, _, htx, hnot⟩
    exact absurd ((hnew tx htx).mpr hnot) (by simp [hnil])

/-- The loop sends a peer what was new to it before, by its first entry. -/
theorem foldl_sendTransactionsTo (now : Int) (txs : List TypedTransaction) (id : PeerId)
    (tx : TypedTransaction) (peers : List Peer) :
    ∀ acc : KnownByPeer × List (PeerId × List TypedTransaction),
      (∃ entry ∈ (peers.foldl (sendTransactionsTo now txs) acc).2, entry.1 = id ∧ tx ∈ entry.2) ↔
        (∃ entry ∈ acc.2, entry.1 = id ∧ tx ∈ entry.2) ∨
          (tx ∈ txs ∧ tx.hash ∉ knownHashes acc.1 id ∧
            ∃ peer, firstOf peers id = some peer ∧ peer.eth.isSome) := by
  induction peers with
  | nil => intro acc; simp [firstOf]
  | cons peer peers ih =>
    intro acc
    rw [foldl_cons, ih, sendTransactionsTo_sent, sendTransactionsTo_known,
      knownHashes_addToKnownByPeer]
    by_cases hid : peer.id = id
    · subst hid
      have hfirst : firstOf (peer :: peers) peer.id = some peer := by simp [firstOf]
      -- afterwards every hash of the batch is known to it
      have hlater : tx ∈ txs → tx.hash ∈ knownHashes acc.1 peer.id ++
          fresh (knownHashes acc.1 peer.id) (txs.map TypedTransaction.hash) := by
        intro htx
        rw [mem_append, mem_fresh]
        by_cases hold : tx.hash ∈ knownHashes acc.1 peer.id
        · exact Or.inl hold
        · exact Or.inr ⟨mem_map_of_mem htx, hold⟩
      rw [if_pos rfl, hfirst]
      constructor
      · rintro ((hold | ⟨_, heth, htx, hnot⟩) | ⟨htx, hnot, _⟩)
        · exact Or.inl hold
        · exact Or.inr ⟨htx, hnot, peer, rfl, heth⟩
        · exact absurd (hlater htx) hnot
      · rintro (hold | ⟨htx, hnot, peer', heq, heth⟩)
        · exact Or.inl (Or.inl hold)
        · cases heq
          exact Or.inl (Or.inr ⟨rfl, heth, htx, hnot⟩)
    · have hfirst : firstOf (peer :: peers) id = firstOf peers id := by simp [firstOf, hid]
      rw [if_neg (Ne.symm hid), hfirst]
      constructor
      · rintro ((hold | ⟨heq, _⟩) | hnew)
        · exact Or.inl hold
        · exact absurd heq hid
        · exact Or.inr hnew
      · rintro (hold | hnew)
        · exact Or.inl (Or.inl hold)
        · exact Or.inr hnew

theorem sendTransactions_sent (now : Int) (known : KnownByPeer) (txs : List TypedTransaction)
    (peers : List Peer) (id : PeerId) (tx : TypedTransaction) :
    (∃ entry ∈ (sendTransactions now known txs peers).2, entry.1 = id ∧ tx ∈ entry.2) ↔
      tx ∈ txs ∧ tx.hash ∉ knownHashes known id ∧
        ∃ peer, firstOf peers id = some peer ∧ peer.eth.isSome := by
  unfold sendTransactions
  split
  · rename_i hempty
    refine iff_of_false (by simp) ?_
    rintro ⟨htx, _, peer, hpeer, _⟩
    rcases hempty with htxs | hpeers
    · rw [length_eq_zero_iff.mp htxs] at htx
      cases htx
    · rw [length_eq_zero_iff.mp hpeers] at hpeer
      cases hpeer
  · rw [foldl_sendTransactionsTo]
    simp

/-! ## Forwarding what was added -/

/-- The `add` of a transaction with this hash resolved. -/
def AddedHash (txs : List AnnouncedTx) (hash : UnprefixedHash) : Prop :=
  ∃ a ∈ txs, a.tx.hash = hash ∧ a.added = true

/-- Everything forwarded, in full or by its hash, has been added. -/
structure ForwardsAdded (txs : List AnnouncedTx) (forwarded : Forwarded) : Prop where
  transactions : ∀ entry ∈ forwarded.transactions, ∀ tx ∈ entry.2, AddedHash txs tx.hash
  announcements : ∀ entry ∈ forwarded.announcements, ∀ hash ∈ entry.2.carried, AddedHash txs hash

theorem ForwardsAdded.of_nothing {txs : List AnnouncedTx} {forwarded : Forwarded}
    (htransactions : forwarded.transactions = []) (hannouncements : forwarded.announcements = []) :
    ForwardsAdded txs forwarded where
  transactions := by simp [htransactions]
  announcements := by simp [hannouncements]

variable (send : Peer → Announcement → Option SendError)

/-- The peer is sent a message for the new hashes, and `hash` is in it. -/
def Hears (txs : TxHashes) (peer : Peer) (hashesToSend : List UnprefixedHash)
    (hash : UnprefixedHash) : Prop :=
  ∃ eth, peer.eth = some eth ∧ hash ∈ (announcementFor eth txs hashesToSend).carried ∧
    send peer (announcementFor eth txs hashesToSend) = none

theorem outcome_hears_iff (txs : TxHashes) (peer : Peer) (hashesToSend : List UnprefixedHash)
    (hash : UnprefixedHash) :
    (∃ message ∈ (outcome send txs peer hashesToSend).2, hash ∈ message.carried) ↔
      Hears send txs peer hashesToSend hash := by
  unfold Hears
  by_cases hne : hashesToSend = []
  · subst hne
    refine iff_of_false (by simp) ?_
    rintro ⟨eth, _, hmem, _⟩
    exact absurd ((carried_sublist eth txs []).subset hmem) not_mem_nil
  · cases heth : peer.eth with
    | none => simp [outcome_of_no_handler send heth]
    | some eth =>
      cases hsend : send peer (announcementFor eth txs hashesToSend) with
      | none => simp [outcome_of_sent send heth hne hsend, hsend]
      | some e => simp [outcome_of_thrown send heth hne hsend, hsend]

/-- An id hears of a hash when its first peer does. -/
theorem sendNewTxHashes_hears_iff (now : Int) (known : KnownByPeer) (txs : TxHashes)
    (peers : List Peer) (hash : UnprefixedHash) :
    (∃ entry ∈ (sendNewTxHashes send now known txs peers).2, hash ∈ entry.2.carried) ↔
      ∃ id peer, firstOf peers id = some peer ∧ Hears send txs peer (toSend known txs id) hash := by
  have hsent : ∀ id message, (id, message) ∈ (sendNewTxHashes send now known txs peers).2 ↔
      message ∈ (outcomeAt send known txs peers id).2 := by
    intro id message
    rw [← sentTo_sendNewTxHashes send now]
    simp [sentTo]
  constructor
  · rintro ⟨⟨id, message⟩, hentry, hmem⟩
    have hmessage := (hsent id message).mp hentry
    unfold outcomeAt at hmessage
    split at hmessage
    · cases hmessage
    · rename_i peer hpeer
      exact ⟨id, peer, hpeer, (outcome_hears_iff send txs peer _ hash).mp ⟨message, hmessage, hmem⟩⟩
  · rintro ⟨id, peer, hpeer, hhears⟩
    obtain ⟨message, hmessage, hmem⟩ := (outcome_hears_iff send txs peer _ hash).mpr hhears
    refine ⟨(id, message), (hsent id message).mpr ?_, hmem⟩
    simpa only [outcomeAt, hpeer] using hmessage

/-- The announcements of a batch's added transactions are of added hashes. -/
theorem announcements_added (now : Int) (known : KnownByPeer) (txs : List AnnouncedTx)
    (peers : List Peer) :
    ∀ entry ∈ (sendNewTxHashes send now known (columnsOf (txs.filter AnnouncedTx.added)) peers).2,
      ∀ hash ∈ entry.2.carried, AddedHash txs hash := by
  intro entry hentry hash hmem
  obtain ⟨id, peer, _, eth, _, hcarried, _⟩ :=
    (sendNewTxHashes_hears_iff send now known _ peers hash).mp ⟨entry, hentry, hmem⟩
  have hnew := mem_fresh.mp ((carried_sublist eth _ _).subset hcarried)
  obtain ⟨a, ha, rfl⟩ := mem_map.mp hnew.1
  obtain ⟨htx, hadded⟩ := mem_filter.mp ha
  exact ⟨a, htx, rfl, hadded⟩

/-! ## The two handlers -/

/-- The records once the announcing peer is known to have the hashes and the
`add`s are over. -/
def recordsAfter (now : Int) (known : KnownByPeer) (meanwhile : KnownByPeer → KnownByPeer)
    (txHashes : List UnprefixedHash) (peer : Peer) : KnownByPeer :=
  meanwhile (addToKnownByPeer now known txHashes peer).1

/-- Nothing that was not added is new to one of the peers that get full
transactions. -/
def RejectedKnown (known : KnownByPeer) (txs : List AnnouncedTx) (peers : List Peer) : Prop :=
  ∀ id peer, firstOf (peers.take (numFullBroadcast peers.length)) id = some peer →
    peer.eth.isSome → ∀ a ∈ txs, a.tx.hash ∉ knownHashes known id → AddedHash txs a.tx.hash

theorem forwardTxs_iff (now : Int) (known : KnownByPeer) (txs : List AnnouncedTx)
    (peers : List Peer) :
    ForwardsAdded txs (forwardTxs send now known txs peers) ↔ RejectedKnown known txs peers := by
  have htransactions : (forwardTxs send now known txs peers).transactions =
      (sendTransactions now known (txs.map AnnouncedTx.tx)
        (peers.take (numFullBroadcast peers.length))).2 := by
    unfold forwardTxs
    simp only
    split <;> rfl
  constructor
  · intro h id peer hpeer heth a ha hnew
    obtain ⟨entry, hentry, _, hmem⟩ := (sendTransactions_sent now known (txs.map AnnouncedTx.tx)
      (peers.take (numFullBroadcast peers.length)) id a.tx).mpr
        ⟨mem_map_of_mem ha, hnew, peer, hpeer, heth⟩
    exact h.transactions entry (htransactions ▸ hentry) a.tx hmem
  · intro h
    constructor
    · intro entry hentry tx hmem
      rw [htransactions] at hentry
      obtain ⟨htx, hnew, peer, hpeer, heth⟩ := (sendTransactions_sent now known
        (txs.map AnnouncedTx.tx) (peers.take (numFullBroadcast peers.length)) entry.1 tx).mp
          ⟨entry, hentry, rfl, hmem⟩
      obtain ⟨a, ha, rfl⟩ := mem_map.mp htx
      exact h entry.1 peer hpeer heth a ha hnew
    · intro entry hentry hash hmem
      unfold forwardTxs at hentry
      simp only at hentry
      split at hentry
      · exact announcements_added send now _ txs _ entry hentry hash hmem
      · cases hentry

/-- The transactions of an answer. -/
def Fetched.txs : Fetched → List AnnouncedTx
  | .rejected => []
  | .resolved txs => txs

/-- What `handleAnnouncedTxHashes` is to leave behind: it forwards what has been
added of the answer, and no hash it requested is in the fetching list. -/
structure HashesSettled (txs : List AnnouncedTx) (handled : HashesHandled) : Prop where
  forwards : ∀ forwarded, handled.forwarded = some forwarded → ForwardsAdded txs forwarded
  cleared : ∀ hash ∈ handled.requested, hash ∉ handled.fetchingHashes

/-- The request comes to an answer, and no peer hears of a hash in it that was
not added. -/
def AnswerAdded (known : KnownByPeer) (peers : List Peer) : Fetched → Prop
  | .rejected => False
  | .resolved txs => (∀ a ∈ txs, a.tx.signed = true) →
      ∀ id peer, firstOf peers id = some peer →
        ∀ hash, Hears send (columnsOf txs) peer (toSend known (columnsOf txs) id) hash →
          AddedHash txs hash

theorem handleAnnouncedTxHashes_iff (getPooledTransactions : Peer → List UnprefixedHash → Fetched)
    (now : Int) (running : Bool) (handled : UnprefixedHash → Bool)
    (fetchingHashes : List UnprefixedHash) (known : KnownByPeer)
    (meanwhile : KnownByPeer → KnownByPeer) (txHashes : List UnprefixedHash) (peer : Peer)
    (peers : List Peer) : HashesSettled (getPooledTransactions peer
          ((hashesToRequest fetchingHashes handled txHashes).take TX_RETRIEVAL_LIMIT)).txs
        (handleAnnouncedTxHashes send getPooledTransactions now running handled fetchingHashes
          known meanwhile txHashes peer peers) ↔
      (running = true → peer.eth.isSome → hashesToRequest fetchingHashes handled txHashes ≠ [] →
        AnswerAdded send (recordsAfter now known meanwhile txHashes peer) peers
          (getPooledTransactions peer
            ((hashesToRequest fetchingHashes handled txHashes).take TX_RETRIEVAL_LIMIT))) := by
  generalize hreq : hashesToRequest fetchingHashes handled txHashes = reqHashes
  have hclear : ∀ hash ∈ reqHashes, hash ∉ (fetchingHashes ++ reqHashes).filter
      (fun hash => !reqHashes.contains hash) := by
    intro hash hmem hfetch
    simpa [hmem] using (mem_filter.mp hfetch).2
  unfold handleAnnouncedTxHashes
  simp only [hreq]
  split
  · rename_i hskip
    refine iff_of_true ⟨?_, by simp⟩ ?_
    · rintro forwarded ⟨⟩
      exact ForwardsAdded.of_nothing rfl rfl
    · intro hrunning _ hne
      refine absurd ?_ hne
      have htxs : txHashes = [] := by simpa [hrunning] using hskip
      rw [← hreq, htxs]
      rfl
  · rename_i hrun
    have hrunning : running = true := by
      cases running with
      | true => rfl
      | false => simp at hrun
    split
    · rename_i hnone
      refine iff_of_true ⟨?_, by simp⟩ (fun _ _ hne => absurd (length_eq_zero_iff.mp hnone) hne)
      rintro forwarded ⟨⟩
      exact ForwardsAdded.of_nothing rfl rfl
    · rename_i hsome
      have hne : reqHashes ≠ [] := fun h => hsome (by rw [h]; rfl)
      cases heth : peer.eth with
      | none =>
        refine iff_of_true ⟨?_, hclear⟩ (by simp)
        rintro forwarded ⟨⟩
        exact ForwardsAdded.of_nothing rfl rfl
      | some eth =>
        simp only [hrunning, Option.isSome_some, forall_true_left, hne, ne_eq, not_false_eq_true]
        cases hget : getPooledTransactions peer (reqHashes.take TX_RETRIEVAL_LIMIT) with
        | rejected =>
          -- the hashes stay in the list, and there is one
          refine iff_of_false (fun h => ?_) id
          obtain ⟨hash, hmem⟩ := exists_mem_of_ne_nil _ hne
          exact h.cleared hash hmem (mem_append_right _ hmem)
        | resolved txs =>
          simp only [Fetched.txs, AnswerAdded]
          split
          · rename_i hunsigned
            refine iff_of_true ⟨by simp, hclear⟩ (fun hsigned => ?_)
            exact absurd (all_eq_true.mpr hsigned) (by simpa using hunsigned)
          · rename_i hsigned
            have hall : ∀ a ∈ txs, a.tx.signed = true := by simpa using hsigned
            constructor
            · intro h _ id peer' hpeer hash hhears
              obtain ⟨entry, hentry, hmem⟩ := (sendNewTxHashes_hears_iff send now
                (recordsAfter now known meanwhile txHashes peer) (columnsOf txs) peers hash).mpr
                  ⟨id, peer', hpeer, hhears⟩
              exact (h.forwards _ rfl).announcements entry hentry hash hmem
            · intro h
              refine ⟨?_, hclear⟩
              rintro forwarded ⟨⟩
              refine ⟨by simp, fun entry hentry hash hmem => ?_⟩
              obtain ⟨id, peer', hpeer, hhears⟩ := (sendNewTxHashes_hears_iff send now
                (recordsAfter now known meanwhile txHashes peer) (columnsOf txs) peers hash).mp
                  ⟨entry, hentry, hmem⟩
              exact h hall id peer' hpeer hash hhears

theorem handleAnnouncedTxs_iff (now : Int) (running : Bool) (known : KnownByPeer)
    (meanwhile : KnownByPeer → KnownByPeer) (txs : List AnnouncedTx) (peer : Peer)
    (peers : List Peer) :
    (∀ forwarded, handleAnnouncedTxs send now running known meanwhile txs peer peers =
        some forwarded → ForwardsAdded txs forwarded) ↔
      (running = true → (∀ a ∈ txs, a.tx.signed = true) →
        RejectedKnown (recordsAfter now known meanwhile (hashesOf txs) peer) txs peers) := by
  unfold handleAnnouncedTxs
  split
  · rename_i hskip
    refine iff_of_true ?_ ?_
    · rintro forwarded ⟨⟩
      exact ForwardsAdded.of_nothing rfl rfl
    · intro hrunning _ id q _ _ a ha
      have htxs : txs = [] := by simpa [hrunning] using hskip
      rw [htxs] at ha
      cases ha
  · rename_i hrun
    have hrunning : running = true := by
      cases running with
      | true => rfl
      | false => simp at hrun
    split
    · rename_i hunsigned
      refine iff_of_true (by simp) (fun _ hsigned => ?_)
      exact absurd (all_eq_true.mpr hsigned) (by simpa using hunsigned)
    · rename_i hsigned
      have hall : ∀ a ∈ txs, a.tx.signed = true := by simpa using hsigned
      simp only [Option.some.injEq, forall_eq']
      rw [forwardTxs_iff]
      exact ⟨fun h _ _ => h, fun h => h hrunning hall⟩

/-- A transaction whose `add` was rejected. -/
def rejectedTx : AnnouncedTx where
  tx := { type := .legacy, signed := true, hash := 7, sender := some 1, nonce := 0, gasPrice := 1,
          gasLimit := 21000, value := 0, dataLength := 0 }
  byteLength := 100
  added := false

private theorem not_addedHash_rejectedTx : ¬ AddedHash [rejectedTx] 7 := by
  rintro ⟨a, ha, _, hadded⟩
  rw [mem_singleton.mp ha] at hadded
  cases hadded

end TxPool
