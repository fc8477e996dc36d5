-- SUMMARY: What the transaction pool records as known by its peers, and the hashes it announces to them.
import TsEthereum.ExecutionClient.TxPool.State

/-!
# Announcements

`addToKnownByPeer`, `markFailedSends` and `sendNewTxHashes` of
`service/txpool.ts`. The records are made before the announcement is cut, so
what a peer is recorded to know and what it is told are two lists.
-/

open List

namespace TxPool

abbrev PeerId := Nat

/-- What a peer's `send` throws. -/
abbrev SendError := String

structure SentObject where
  hash : UnprefixedHash
  added : Int
  error : Option SendError
  deriving DecidableEq, Inhabited

/-- The part of a peer's protocol handler that the pool reads. A handler need
not have `versions`. -/
structure EthHandler where
  versions : Option (List Nat)
  deriving DecidableEq, Inhabited

def EthHandler.speaks68 (eth : EthHandler) : Bool :=
  match eth.versions with
  | none => false
  | some versions => versions.contains 68

structure Peer where
  id : PeerId
  eth : Option EthHandler
  deriving DecidableEq, Inhabited

abbrev KnownByPeer := OrderedMap PeerId (List SentObject)

/-- The records of a peer, `[]` where it has none. -/
def sentObjects (known : KnownByPeer) (id : PeerId) : List SentObject := (known.get id).getD []

/-- The hashes recorded as known by a peer. -/
def knownHashes (known : KnownByPeer) (id : PeerId) : List UnprefixedHash :=
  (sentObjects known id).map SentObject.hash

/-- `[tx_types, tx_sizes, hashes]`. -/
structure TxHashes where
  types : List Nat
  sizes : List Nat
  hashes : List UnprefixedHash

/-- A `NewPooledTransactionHashes` message: the three columns of eth/68, or the
hashes alone. -/
inductive Announcement where
  | columns (types sizes : List (Option Nat)) (hashes : List UnprefixedHash)
  | plain (hashes : List UnprefixedHash)
  deriving DecidableEq

/-- The hashes that a message carries. -/
def Announcement.carried : Announcement → List UnprefixedHash
  | .columns _ _ hashes => hashes
  | .plain hashes => hashes

/-! ## The source -/

/-- One round of the loop of `addToKnownByPeer`: the peer's records and the new
hashes so far. -/
def recordHash (now : Int) (acc : List SentObject × List UnprefixedHash) (hash : UnprefixedHash) :
    List SentObject × List UnprefixedHash :=
  let inSent := (acc.1.filter (fun sentObject => sentObject.hash = hash)).length
  if inSent = 0 then (acc.1 ++ [⟨hash, now, none⟩], acc.2 ++ [hash]) else acc

def addToKnownByPeer (now : Int) (known : KnownByPeer) (txHashes : List UnprefixedHash)
    (peer : Peer) : KnownByPeer × List UnprefixedHash :=
  let acc := txHashes.foldl (recordHash now) (sentObjects known peer.id, [])
  (known.set peer.id acc.1, acc.2)

/-- Sets the error of the first record of `hash`. -/
def markFirst (e : SendError) (records : List SentObject) (hash : UnprefixedHash) :
    List SentObject :=
  match records with
  | [] => []
  | sentObject :: rest =>
    if sentObject.hash = hash then { sentObject with error := some e } :: rest
    else sentObject :: markFirst e rest hash

def markFailedSends (known : KnownByPeer) (peer : Peer) (failedHashes : List UnprefixedHash)
    (e : SendError) : KnownByPeer :=
  match known.get peer.id with
  | none => known
  | some records => known.set peer.id (failedHashes.foldl (markFirst e) records)

/-- The message that a peer is sent for the hashes it does not know. -/
def announcementFor (eth : EthHandler) (txs : TxHashes) (hashesToSend : List UnprefixedHash) :
    Announcement :=
  if eth.speaks68 then
    let index (hash : UnprefixedHash) := txs.hashes.findIdx (fun el => el = hash)
    -- `slice(0, 4096)` of the array of the three columns leaves it as it is
    .columns (hashesToSend.map (fun hash => txs.types[index hash]?))
      (hashesToSend.map (fun hash => txs.sizes[index hash]?)) hashesToSend
  else .plain (hashesToSend.take 4096)

section Sending

-- what `peer.eth.send` throws for a message, if it does
variable (send : Peer → Announcement → Option SendError)

/-- One round of the loop of `sendNewTxHashes`: the records, and the messages
sent so far. -/
def announceTo (now : Int) (txs : TxHashes)
    (acc : KnownByPeer × List (PeerId × Announcement)) (peer : Peer) :
    KnownByPeer × List (PeerId × Announcement) :=
  let (known, hashesToSend) := addToKnownByPeer now acc.1 txs.hashes peer
  if hashesToSend.length > 0 then
    match peer.eth with
    | none => (known, acc.2)
    | some eth =>
      let message := announcementFor eth txs hashesToSend
      match send peer message with
      | none => (known, acc.2 ++ [(peer.id, message)])
      | some e => (markFailedSends known peer hashesToSend e, acc.2)
  else (known, acc.2)

def sendNewTxHashes (now : Int) (known : KnownByPeer) (txs : TxHashes) (peers : List Peer) :
    KnownByPeer × List (PeerId × Announcement) :=
  peers.foldl (announceTo send now txs) (known, [])

end Sending

/-! ## What is new to a peer -/

/-- The hashes of a list that are not among `known`, each at its first place. -/
def fresh (known : List UnprefixedHash) : List UnprefixedHash → List UnprefixedHash
  | [] => []
  | hash :: hashes =>
    if hash ∈ known then fresh known hashes else hash :: fresh (known ++ [hash]) hashes

variable {hashes : List UnprefixedHash}

theorem mem_fresh {h : UnprefixedHash} :
    ∀ {known : List UnprefixedHash}, h ∈ fresh known hashes ↔ h ∈ hashes ∧ h ∉ known := by
  induction hashes with
  | nil => simp [fresh]
  | cons hash hashes ih =>
    intro known
    unfold fresh
    split
    · rename_i hknown
      rw [ih, mem_cons]
      constructor
      · exact fun h => ⟨Or.inr h.1, h.2⟩
      · rintro ⟨rfl | hmem, hnot⟩
        · exact absurd hknown hnot
        · exact ⟨hmem, hnot⟩
    · rename_i hknown
      rw [mem_cons, ih, mem_append, mem_singleton, mem_cons]
      by_cases heq : h = hash
      · simp [heq, hknown]
      · simp [heq]

theorem nodup_fresh (hashes : List UnprefixedHash) :
    ∀ known : List UnprefixedHash, (fresh known hashes).Nodup := by
  induction hashes with
  | nil => intro known; exact nodup_nil
  | cons hash hashes ih =>
    intro known
    unfold fresh
    split
    · exact ih known
    · refine nodup_cons.mpr ⟨fun hmem => ?_, ih _⟩
      exact (mem_fresh.mp hmem).2 (by simp)

/-- Nothing is new once everything is known. -/
theorem fresh_of_subset {known : List UnprefixedHash} (h : hashes ⊆ known) :
    fresh known hashes = [] := by
  refine List.eq_nil_iff_forall_not_mem.mpr (fun x hx => ?_)
  exact (mem_fresh.mp hx).2 (h (mem_fresh.mp hx).1)

/-- Distinct hashes of which none is known are all new. -/
theorem fresh_of_disjoint (hnodup : hashes.Nodup) :
    ∀ {known : List UnprefixedHash}, (∀ hash ∈ hashes, hash ∉ known) → fresh known hashes = hashes := by
  induction hashes with
  | nil => intro known _; rfl
  | cons hash hashes ih =>
    intro known hnone
    obtain ⟨hnot, hrest⟩ := nodup_cons.mp hnodup
    rw [fresh, if_neg (hnone hash mem_cons_self), ih hrest]
    intro x hx hmem
    rcases mem_append.mp hmem with hknown | hlast
    · exact hnone x (mem_cons_of_mem hash hx) hknown
    · exact hnot (mem_singleton.mp hlast ▸ hx)

/-- The loop of `addToKnownByPeer` appends one record for each new hash. -/
theorem foldl_recordHash (now : Int) (hashes : List UnprefixedHash) :
    ∀ (records : List SentObject) (newHashes : List UnprefixedHash),
      hashes.foldl (recordHash now) (records, newHashes) =
        (records ++ (fresh (records.map SentObject.hash) hashes).map (⟨·, now, none⟩),
          newHashes ++ fresh (records.map SentObject.hash) hashes) := by
  induction hashes with
  | nil => intro records newHashes; simp [fresh]
  | cons hash hashes ih =>
    intro records newHashes
    rw [foldl_cons]
    have hin : (records.filter (fun sentObject => sentObject.hash = hash)).length = 0 ↔
        hash ∉ records.map SentObject.hash := by
      simp [filter_eq_nil_iff]
    unfold fresh
    split
    · rename_i hknown
      rw [show recordHash now (records, newHashes) hash = (records, newHashes) from
        if_neg (fun h => hin.mp h hknown)]
      exact ih records newHashes
    · rename_i hknown
      rw [show recordHash now (records, newHashes) hash =
        (records ++ [⟨hash, now, none⟩], newHashes ++ [hash]) from if_pos (hin.mpr hknown)]
      rw [ih]
      simp

/-! ## Failed sends -/

variable {e : SendError}

theorem markFirst_append {hash : UnprefixedHash} {records : List SentObject}
    (h : hash ∉ records.map SentObject.hash) (rest : List SentObject) :
    markFirst e (records ++ rest) hash = records ++ markFirst e rest hash := by
  induction records with
  | nil => rfl
  | cons sentObject records ih =>
    rw [map_cons, mem_cons, not_or] at h
    rw [cons_append, markFirst, if_neg (Ne.symm h.1), ih h.2, cons_append]

/-- Marking passes by the records of other hashes. -/
theorem foldl_markFirst_append {records : List SentObject}
    (h : ∀ hash ∈ hashes, hash ∉ records.map SentObject.hash) : ∀ rest : List SentObject,
      hashes.foldl (markFirst e) (records ++ rest) = records ++ hashes.foldl (markFirst e) rest := by
  induction hashes with
  | nil => intro rest; rfl
  | cons hash hashes ih =>
    intro rest
    rw [foldl_cons, markFirst_append (h hash mem_cons_self), foldl_cons]
    exact ih (fun x hx => h x (mem_cons_of_mem hash hx)) _

/-- Marking distinct hashes marks the record of each. -/
theorem foldl_markFirst_records {now : Int} (hnodup : hashes.Nodup) :
    hashes.foldl (markFirst e) (hashes.map (⟨·, now, none⟩)) = hashes.map (⟨·, now, some e⟩) := by
  induction hashes with
  | nil => rfl
  | cons hash hashes ih =>
    obtain ⟨hnot, hrest⟩ := nodup_cons.mp hnodup
    have hothers : ∀ x ∈ hashes, x ∉ [(⟨hash, now, some e⟩ : SentObject)].map SentObject.hash := by
      intro x hx hmem
      have heq : x = hash := by simpa using hmem
      exact hnot (heq ▸ hx)
    simp only [map_cons, foldl_cons, markFirst, if_true]
    exact (foldl_markFirst_append hothers _).trans (congrArg _ (ih hrest))

/-! ## One peer -/

/-- The hashes that are new to a peer. -/
def toSend (known : KnownByPeer) (txs : TxHashes) (id : PeerId) : List UnprefixedHash :=
  fresh (knownHashes known id) txs.hashes

/-- The messages for one peer. -/
def sentTo (id : PeerId) (sent : List (PeerId × Announcement)) : List Announcement :=
  (sent.filter (fun entry => entry.1 = id)).map Prod.snd

variable (send : Peer → Announcement → Option SendError)

/-- What comes of announcing `hashesToSend` to a peer: the error that the
records keep, and the messages sent. -/
def outcome (txs : TxHashes) (peer : Peer) (hashesToSend : List UnprefixedHash) :
    Option SendError × List Announcement :=
  match peer.eth, hashesToSend with
  | none, _ => (none, [])
  | some _, [] => (none, [])
  | some eth, hash :: hashes =>
    match send peer (announcementFor eth txs (hash :: hashes)) with
    | none => (none, [announcementFor eth txs (hash :: hashes)])
    | some e => (some e, [])

@[simp] theorem outcome_nil (txs : TxHashes) (peer : Peer) : outcome send txs peer [] = (none, []) := by
  unfold outcome
  cases peer.eth <;> rfl

theorem addToKnownByPeer_eq (now : Int) (known : KnownByPeer) (txHashes : List UnprefixedHash)
    (peer : Peer) : addToKnownByPeer now known txHashes peer =
      (known.set peer.id (sentObjects known peer.id ++
        (fresh (knownHashes known peer.id) txHashes).map (⟨·, now, none⟩)),
        fresh (knownHashes known peer.id) txHashes) := by
  unfold addToKnownByPeer
  rw [foldl_recordHash]
  rfl

@[simp] theorem sentObjects_set (known : KnownByPeer) (id id' : PeerId) (records : List SentObject) :
    sentObjects (known.set id records) id' = if id' = id then records else sentObjects known id' := by
  unfold sentObjects
  rw [OrderedMap.get_set]
  split <;> rfl

/-- A peer's round appends a record for each new hash, with the error of the
send, and leaves the other peers alone. -/
theorem sentObjects_announceTo (now : Int) (txs : TxHashes) (known : KnownByPeer)
    (sent : List (PeerId × Announcement)) (peer : Peer) (id : PeerId) :
    sentObjects (announceTo send now txs (known, sent) peer).1 id =
      if id = peer.id then
        sentObjects known id ++ (toSend known txs id).map
          (⟨·, now, (outcome send txs peer (toSend known txs peer.id)).1⟩)
      else sentObjects known id := by
  have hnodup := nodup_fresh txs.hashes (knownHashes known peer.id)
  have hnew : ∀ hash ∈ toSend known txs peer.id,
      hash ∉ (sentObjects known peer.id).map SentObject.hash :=
    fun hash hmem => (mem_fresh.mp hmem).2
  unfold announceTo
  simp only [addToKnownByPeer_eq]
  change _ = if id = peer.id then _ else _
  rw [← toSend] at hnodup ⊢
  cases hsend : toSend known txs peer.id with
  | nil =>
    rw [if_neg (by simp), sentObjects_set]
    split
    · rename_i hid
      subst hid
      rw [hsend]
      rfl
    · rfl
  | cons hash hashes =>
    rw [hsend] at hnodup hnew
    rw [if_pos (by simp)]
    have hplain : sentObjects (known.set peer.id (sentObjects known peer.id ++
        (hash :: hashes).map (⟨·, now, none⟩))) id =
        if id = peer.id then
          sentObjects known id ++ (toSend known txs id).map (⟨·, now, none⟩)
        else sentObjects known id := by
      rw [sentObjects_set]
      split
      · rename_i hid
        rw [hid, hsend]
      · rfl
    cases heth : peer.eth with
    | none => simpa [outcome, heth] using hplain
    | some eth =>
      cases hmessage : send peer (announcementFor eth txs (hash :: hashes)) with
      | none => simpa [outcome, heth, hmessage] using hplain
      | some e =>
        have hmark : (hash :: hashes).foldl (markFirst e) (sentObjects known peer.id ++
            (hash :: hashes).map (⟨·, now, none⟩)) =
              sentObjects known peer.id ++ (hash :: hashes).map (⟨·, now, some e⟩) := by
          rw [foldl_markFirst_append hnew, foldl_markFirst_records hnodup]
        simp only [outcome, heth, hmessage, markFailedSends, OrderedMap.get_set, if_true]
        rw [sentObjects_set, hmark]
        split
        · rename_i hid
          rw [hid, hsend]
        · rename_i hid
          rw [sentObjects_set, if_neg hid]

/-- The messages of a peer's round. -/
theorem sentTo_announceTo (now : Int) (txs : TxHashes) (known : KnownByPeer)
    (sent : List (PeerId × Announcement)) (peer : Peer) (id : PeerId) :
    sentTo id (announceTo send now txs (known, sent) peer).2 =
      sentTo id sent ++
        if peer.id = id then (outcome send txs peer (toSend known txs peer.id)).2 else [] := by
  unfold announceTo
  simp only [addToKnownByPeer_eq]
  rw [← toSend]
  cases toSend known txs peer.id with
  | nil => simp
  | cons hash hashes =>
    rw [if_pos (by simp)]
    cases heth : peer.eth with
    | none => simp [outcome, heth]
    | some eth =>
      cases hmessage : send peer (announcementFor eth txs (hash :: hashes)) with
      | none =>
        by_cases hid : peer.id = id <;> simp [outcome, heth, hmessage, sentTo, hid]
      | some e => simp [outcome, heth, hmessage]

/-! ## All peers -/

/-- The first of some peers that has an id. -/
def firstOf (peers : List Peer) (id : PeerId) : Option Peer :=
  peers.find? (fun peer => peer.id = id)

/-- What comes of the whole loop for one id, from that of its first peer. -/
def outcomeAt (known : KnownByPeer) (txs : TxHashes) (peers : List Peer) (id : PeerId) :
    Option SendError × List Announcement :=
  match firstOf peers id with
  | none => (none, [])
  | some peer => outcome send txs peer (toSend known txs id)

/-- Once a peer knows all the hashes, the rest of the loop sends it nothing and
keeps its records. -/
private theorem foldl_announceTo_known (now : Int) (txs : TxHashes) (id : PeerId) (peers : List Peer) :
    ∀ (known : KnownByPeer) (sent : List (PeerId × Announcement)), toSend known txs id = [] →
      sentObjects (peers.foldl (announceTo send now txs) (known, sent)).1 id = sentObjects known id ∧
      sentTo id (peers.foldl (announceTo send now txs) (known, sent)).2 = sentTo id sent := by
  induction peers with
  | nil => intro known sent _; exact ⟨rfl, rfl⟩
  | cons peer peers ih =>
    intro known sent hknown
    have hrecords : sentObjects (announceTo send now txs (known, sent) peer).1 id =
        sentObjects known id := by
      rw [sentObjects_announceTo, hknown]
      simp
    have hsent : sentTo id (announceTo send now txs (known, sent) peer).2 = sentTo id sent := by
      rw [sentTo_announceTo]
      split
      · rename_i hid
        rw [hid, hknown]
        simp
      · exact append_nil _
    have hstill : toSend (announceTo send now txs (known, sent) peer).1 txs id = [] := by
      unfold toSend knownHashes at hknown ⊢
      rwa [hrecords]
    obtain ⟨h1, h2⟩ := ih _ _ hstill
    exact ⟨h1.trans hrecords, h2.trans hsent⟩

/-- The loop over the peers, for one id. -/
private theorem foldl_announceTo (now : Int) (txs : TxHashes) (id : PeerId) (peers : List Peer) :
    ∀ (known : KnownByPeer) (sent : List (PeerId × Announcement)),
      sentObjects (peers.foldl (announceTo send now txs) (known, sent)).1 id =
        (if (firstOf peers id).isSome then sentObjects known id ++ (toSend known txs id).map
          (⟨·, now, (outcomeAt send known txs peers id).1⟩) else sentObjects known id) ∧
      sentTo id (peers.foldl (announceTo send now txs) (known, sent)).2 =
        sentTo id sent ++ (outcomeAt send known txs peers id).2 := by
  induction peers with
  | nil => intro known sent; simp [outcomeAt, firstOf]
  | cons peer peers ih =>
    intro known sent
    rw [foldl_cons]
    by_cases hid : peer.id = id
    · -- the first peer with this id records every hash, so the others change nothing
      subst hid
      have hfirst : firstOf (peer :: peers) peer.id = some peer := by simp [firstOf]
      have hrecords := sentObjects_announceTo send now txs known sent peer peer.id
      rw [if_pos rfl] at hrecords
      have hknown : toSend (announceTo send now txs (known, sent) peer).1 txs peer.id = [] := by
        refine fresh_of_subset (fun hash hmem => ?_)
        unfold knownHashes
        rw [hrecords, map_append, mem_append]
        by_cases hold : hash ∈ knownHashes known peer.id
        · exact Or.inl hold
        · refine Or.inr ?_
          have hnew : hash ∈ toSend known txs peer.id := mem_fresh.mpr ⟨hmem, hold⟩
          simpa using hnew
      obtain ⟨h1, h2⟩ := foldl_announceTo_known send now txs peer.id peers _ _ hknown
      refine ⟨?_, ?_⟩
      · rw [h1, hrecords]
        simp [hfirst, outcomeAt]
      · rw [h2, sentTo_announceTo]
        simp [hfirst, outcomeAt]
    · have hfirst : firstOf (peer :: peers) id = firstOf peers id := by simp [firstOf, hid]
      have hrecords : sentObjects (announceTo send now txs (known, sent) peer).1 id =
          sentObjects known id := by
        rw [sentObjects_announceTo, if_neg (Ne.symm hid)]
      have hsame : toSend (announceTo send now txs (known, sent) peer).1 txs id =
          toSend known txs id := by
        unfold toSend knownHashes
        rw [hrecords]
      have hsent : sentTo id (announceTo send now txs (known, sent) peer).2 = sentTo id sent := by
        rw [sentTo_announceTo, if_neg hid, append_nil]
      obtain ⟨h1, h2⟩ := ih (announceTo send now txs (known, sent) peer).1
        (announceTo send now txs (known, sent) peer).2
      rw [h1, h2, hsent, hrecords, hsame, hfirst]
      unfold outcomeAt
      rw [hfirst, hsame]
      exact ⟨rfl, rfl⟩

theorem sentObjects_sendNewTxHashes (now : Int) (known : KnownByPeer) (txs : TxHashes)
    (peers : List Peer) (id : PeerId) :
    sentObjects (sendNewTxHashes send now known txs peers).1 id =
      if (firstOf peers id).isSome then sentObjects known id ++ (toSend known txs id).map
        (⟨·, now, (outcomeAt send known txs peers id).1⟩) else sentObjects known id :=
  (foldl_announceTo send now txs id peers known []).1

theorem sentTo_sendNewTxHashes (now : Int) (known : KnownByPeer) (txs : TxHashes)
    (peers : List Peer) (id : PeerId) : sentTo id (sendNewTxHashes send now known txs peers).2 =
      (outcomeAt send known txs peers id).2 :=
  (foldl_announceTo send now txs id peers known []).2

/-! ## Records and announcements -/

/-- The records that a call makes are of hashes that it announces or marks as
failed, and it announces no hash that was recorded or announced before. -/
structure AnnouncesRecorded (now : Int) (known : KnownByPeer) (txs : TxHashes) (peers : List Peer) :
    Prop where
  announced : ∀ id, ∀ sentObject ∈ sentObjects (sendNewTxHashes send now known txs peers).1 id,
    sentObject.hash ∉ knownHashes known id →
      (∃ message ∈ sentTo id (sendNewTxHashes send now known txs peers).2,
        sentObject.hash ∈ message.carried) ∨ sentObject.error.isSome
  unknown : ∀ id, ∀ message ∈ sentTo id (sendNewTxHashes send now known txs peers).2,
    ∀ hash ∈ message.carried, hash ∉ knownHashes known id
  once : ∀ id,
    ((sentTo id (sendNewTxHashes send now known txs peers).2).flatMap Announcement.carried).Nodup

/-- The peer can be sent all of the new hashes: there is a handler for it, and
it speaks eth/68 or there are no more than 4096 hashes, unless `send` throws. -/
def CanBeTold (peer : Peer) (hashesToSend : List UnprefixedHash) : Prop :=
  ∃ eth, peer.eth = some eth ∧ (eth.speaks68 = true ∨ hashesToSend.length ≤ 4096 ∨
    (send peer (.plain (hashesToSend.take 4096))).isSome)

/-- A message carries some of the new hashes. -/
theorem carried_sublist (eth : EthHandler) (txs : TxHashes) (hashesToSend : List UnprefixedHash) :
    (announcementFor eth txs hashesToSend).carried.Sublist hashesToSend := by
  unfold announcementFor
  split
  · exact List.Sublist.refl _
  · exact take_sublist _ _

variable {txs : TxHashes} {peer : Peer} {hashesToSend : List UnprefixedHash}

theorem outcome_of_sent {eth : EthHandler} (heth : peer.eth = some eth) (hne : hashesToSend ≠ [])
    (hsend : send peer (announcementFor eth txs hashesToSend) = none) :
    outcome send txs peer hashesToSend = (none, [announcementFor eth txs hashesToSend]) := by
  cases hashesToSend with
  | nil => exact absurd rfl hne
  | cons hash hashes => simp only [outcome, heth, hsend]

theorem outcome_of_thrown {eth : EthHandler} (heth : peer.eth = some eth) (hne : hashesToSend ≠ [])
    (hsend : send peer (announcementFor eth txs hashesToSend) = some e) :
    outcome send txs peer hashesToSend = (some e, []) := by
  cases hashesToSend with
  | nil => exact absurd rfl hne
  | cons hash hashes => simp only [outcome, heth, hsend]

theorem outcome_of_no_handler (heth : peer.eth = none) :
    outcome send txs peer hashesToSend = (none, []) := by
  simp only [outcome, heth]

/-- All messages of a peer's round carry new hashes, each once. -/
theorem outcome_sublist (txs : TxHashes) (peer : Peer) (hashesToSend : List UnprefixedHash) :
    ((outcome send txs peer hashesToSend).2.flatMap Announcement.carried).Sublist hashesToSend := by
  by_cases hne : hashesToSend = []
  · rw [hne, outcome_nil]
    exact nil_sublist _
  · cases heth : peer.eth with
    | none =>
      rw [outcome_of_no_handler send heth]
      exact nil_sublist _
    | some eth =>
      cases hsend : send peer (announcementFor eth txs hashesToSend) with
      | some e =>
        rw [outcome_of_thrown send heth hne hsend]
        exact nil_sublist _
      | none =>
        rw [outcome_of_sent send heth hne hsend, flatMap_singleton]
        exact carried_sublist eth txs hashesToSend

/-- For one peer: each new hash is announced or marked exactly when there is
none, or the peer can be told of all. -/
theorem outcome_told_iff (txs : TxHashes) (peer : Peer) (hnodup : hashesToSend.Nodup) :
    (∀ hash ∈ hashesToSend,
      (∃ message ∈ (outcome send txs peer hashesToSend).2, hash ∈ message.carried) ∨
        (outcome send txs peer hashesToSend).1.isSome) ↔
      hashesToSend = [] ∨ CanBeTold send peer hashesToSend := by
  by_cases hne : hashesToSend = []
  · simp [hne]
  · rw [or_iff_right hne]
    obtain ⟨first, hfirst⟩ := exists_mem_of_ne_nil _ hne
    cases heth : peer.eth with
    | none =>
      refine iff_of_false (fun h => ?_) (fun h => ?_)
      · have hnone := h first hfirst
        simp [outcome_of_no_handler send heth] at hnone
      · obtain ⟨eth, hsome, _⟩ := h
        cases heth.symm.trans hsome
    | some eth =>
      have hcan : CanBeTold send peer hashesToSend ↔ eth.speaks68 = true ∨
          hashesToSend.length ≤ 4096 ∨
            (send peer (.plain (hashesToSend.take 4096))).isSome := by
        simp [CanBeTold, heth]
      rw [hcan]
      cases h68 : eth.speaks68 with
      | true =>
        -- the three columns carry every new hash
        have hmessage : (announcementFor eth txs hashesToSend).carried = hashesToSend := by
          simp only [announcementFor, h68, if_true, Announcement.carried]
        refine iff_of_true (fun hash hmem => ?_) (Or.inl rfl)
        cases hsend : send peer (announcementFor eth txs hashesToSend) with
        | some e => simp [outcome_of_thrown send heth hne hsend]
        | none =>
          rw [outcome_of_sent send heth hne hsend]
          exact Or.inl ⟨_, mem_singleton_self _, by rwa [hmessage]⟩
      | false =>
        have hmessage : announcementFor eth txs hashesToSend = .plain (hashesToSend.take 4096) := by
          simp only [announcementFor, h68, Bool.false_eq_true, if_false]
        cases hsend : send peer (.plain (hashesToSend.take 4096)) with
        | some e =>
          have hthrown : outcome send txs peer hashesToSend = (some e, []) :=
            outcome_of_thrown send heth hne (hmessage ▸ hsend)
          simp [hthrown]
        | none =>
          have hsent : outcome send txs peer hashesToSend =
              (none, [announcementFor eth txs hashesToSend]) :=
            outcome_of_sent send heth hne (hmessage ▸ hsend)
          rw [hsent, hmessage]
          have hall : (∀ hash ∈ hashesToSend, hash ∈ hashesToSend.take 4096) ↔
              hashesToSend.length ≤ 4096 := by
            constructor
            · intro h
              -- a list without repetitions is no longer than one that holds all of it
              have hle : hashesToSend.length ≤ (hashesToSend.take 4096).length :=
                (subperm_of_subset hnodup h).length_le
              rw [length_take] at hle
              exact hle.trans (min_le_left _ _)
            · intro h hash hmem
              rwa [take_of_length_le h]
          simpa [Announcement.carried] using hall

/-- A call announces what it records exactly when every peer, for the first in
the list with its id, has nothing new to learn or can be told of it all. -/
theorem announcesRecorded_iff (now : Int) (known : KnownByPeer) (txs : TxHashes)
    (peers : List Peer) : AnnouncesRecorded send now known txs peers ↔
      ∀ id peer, firstOf peers id = some peer →
        toSend known txs id = [] ∨ CanBeTold send peer (toSend known txs id) := by
  have hnodup : ∀ id, (toSend known txs id).Nodup :=
    fun id => nodup_fresh txs.hashes (knownHashes known id)
  constructor
  · intro h id peer hpeer
    refine (outcome_told_iff send txs peer (hnodup id)).mp (fun hash hmem => ?_)
    have hrecords := sentObjects_sendNewTxHashes send now known txs peers id
    have hmessages := sentTo_sendNewTxHashes send now known txs peers id
    simp only [outcomeAt, hpeer, Option.isSome_some, if_true] at hrecords hmessages
    have hrecord : (⟨hash, now, (outcome send txs peer (toSend known txs id)).1⟩ : SentObject) ∈
        sentObjects (sendNewTxHashes send now known txs peers).1 id := by
      rw [hrecords]
      exact mem_append_right _ (mem_map_of_mem hmem)
    have htold := h.announced id _ hrecord (mem_fresh.mp hmem).2
    rwa [hmessages] at htold
  · intro h
    -- whatever is sent to an id is part of what is new to it
    have hsent : ∀ id, ((sentTo id (sendNewTxHashes send now known txs peers).2).flatMap
        Announcement.carried).Sublist (toSend known txs id) := by
      intro id
      rw [sentTo_sendNewTxHashes]
      unfold outcomeAt
      split
      · exact nil_sublist _
      · exact outcome_sublist send txs _ _
    constructor
    · intro id sentObject hmem hnew
      rw [sentObjects_sendNewTxHashes] at hmem
      rw [sentTo_sendNewTxHashes]
      have hold : sentObject ∉ sentObjects known id := fun hin => hnew (mem_map_of_mem hin)
      split at hmem
      · rename_i hsome
        obtain ⟨peer, hpeer⟩ := Option.isSome_iff_exists.mp hsome
        have hrecord := (mem_append.mp hmem).resolve_left hold
        obtain ⟨hash, hhash, rfl⟩ := mem_map.mp hrecord
        simp only [outcomeAt, hpeer]
        exact (outcome_told_iff send txs peer (hnodup id)).mpr (h id peer hpeer) hash hhash
      · exact absurd hmem hold
    · intro id message hmessage hash hhash
      exact (mem_fresh.mp ((hsent id).subset (mem_flatMap.mpr ⟨message, hmessage, hhash⟩))).2
    · intro id
      exact (hnodup id).sublist (hsent id)

/-- To a peer without records every hash is new. -/
theorem toSend_empty (hnodup : txs.hashes.Nodup) (id : PeerId) :
    toSend OrderedMap.empty txs id = txs.hashes :=
  fresh_of_disjoint hnodup (fun _ _ => not_mem_nil)

/-- Some hashes of transactions of type 0 and size 100. -/
def announced (count : Nat) : TxHashes where
  types := List.replicate count 0
  sizes := List.replicate count 100
  hashes := List.range count

theorem length_toSend_announced (count : Nat) (id : PeerId) :
    (toSend OrderedMap.empty (announced count) id).length = count := by
  have hnodup : (announced count).hashes.Nodup := nodup_range
  rw [toSend_empty hnodup]
  exact length_range

/-- A peer without eth/68 hears of 4096 of the 4097 hashes recorded for it. -/
theorem not_announcesRecorded_long :
    ¬ AnnouncesRecorded (fun _ _ => none) 0 OrderedMap.empty (announced 4097)
      [⟨1, some ⟨none⟩⟩] := by
  rw [announcesRecorded_iff]
  intro h
  have hlong := length_toSend_announced 4097 1
  rcases h 1 ⟨1, some ⟨none⟩⟩ rfl with hnone | ⟨eth, heth, hcan⟩
  · rw [hnone] at hlong
    exact Nat.noConfusion hlong
  · cases heth
    rw [hlong] at hcan
    rcases hcan with h68 | hcap | hthrown
    · exact Bool.noConfusion h68
    · exact absurd hcap (by decide)
    · exact Bool.noConfusion hthrown

end TxPool
