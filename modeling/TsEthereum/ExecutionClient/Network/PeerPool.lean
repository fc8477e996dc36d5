-- SUMMARY: When the peer pool keeps its limit, keeps pending and active peers apart, holds open connections only and never takes a removed peer back.
import TsEthereum.ExecutionClient.Network.NetworkCore

/-!
# The peer pool

The pool is guarded by ids: a callback asks whether some peer of its id is pending, and then
adds its own peer without another look at the limit. The invariant holds as long as every
callback that goes on finds its own peer pending and a free place in the pool, and no peer
becomes pending whose id is in the pool or whose connection has been closed.
-/

open List Option

namespace NetworkCore

open OrderedMap

namespace State

/-! ## Removals -/

def Holds (s : State) (id : String) (peer : P2PPeer) : Prop :=
  s.peers.get id = some peer ∨ s.pendingPeers.get id = some peer

/-- Neither map has an entry for `id`. -/
def Vacant (s : State) (id : String) : Prop := s.peers.get id = none ∧ s.pendingPeers.get id = none

/-- The second state has no peer that the first one lacks, and none of a connection that it
knows to be closed and the first one does not. -/
structure Shrinks (s s' : State) : Prop where
  peers : ∀ id peer, s'.peers.get id = some peer → s.peers.get id = some peer
  pendingPeers : ∀ id peer, s'.pendingPeers.get id = some peer → s.pendingPeers.get id = some peer
  size_le : s'.peers.size ≤ s.peers.size
  handlers : s'.handlers = s.handlers
  closed : ∀ c ∈ s'.closed, c ∈ s.closed ∨ s'.Vacant c.remotePeer

theorem Shrinks.refl (s : State) : Shrinks s s where
  peers := fun _ _ h => h
  pendingPeers := fun _ _ h => h
  size_le := Nat.le_refl _
  handlers := rfl
  closed := fun _ => .inl

variable {id : String}

theorem Shrinks.vacant {s s' : State} (h : Shrinks s s') (hs : s.Vacant id) : s'.Vacant id := by
  constructor
  · exact Option.eq_none_iff_forall_ne_some.mpr fun p hp => by
      cases hs.1.symm.trans (h.peers id p hp)
  · exact Option.eq_none_iff_forall_ne_some.mpr fun p hp => by
      cases hs.2.symm.trans (h.pendingPeers id p hp)

theorem Shrinks.trans {s s' s'' : State} (h : Shrinks s s') (h' : Shrinks s' s'') :
    Shrinks s s'' where
  peers := fun id peer hpeer => h.peers id peer (h'.peers id peer hpeer)
  pendingPeers := fun id peer hpeer => h.pendingPeers id peer (h'.pendingPeers id peer hpeer)
  size_le := Nat.le_trans h'.size_le h.size_le
  handlers := h'.handlers.trans h.handlers
  closed := fun c hc => (h'.closed c hc).elim (fun hc => (h.closed c hc).imp_right h'.vacant) .inr

theorem Shrinks.holds {s s' : State} (h : Shrinks s s') {peer : P2PPeer} (hpeer : s'.Holds id peer) :
    s.Holds id peer :=
  hpeer.imp (h.peers id peer) (h.pendingPeers id peer)

theorem emit_shrinks (e : Emitted) (s : State) : Shrinks s (s.emit e) :=
  { Shrinks.refl s with }

theorem get_of_delete {m : OrderedMap String P2PPeer} {key : String} {peer : P2PPeer}
    (h : (m.delete key).get id = some peer) : m.get id = some peer := by
  rw [get_delete] at h
  split at h
  · cases h
  · exact h

theorem deletePending_shrinks (id : String) (s : State) : Shrinks s (s.deletePending id) :=
  { Shrinks.refl s with
    pendingPeers := fun _ _ h => get_of_delete h
    closed := fun _ => .inl }

section

variable (peer : P2PPeer)
include peer

/-- What `removePeer` leaves, apart from what it emits. -/
theorem removePeer_pools (s : State) : (s.removePeer peer).peers = s.peers.delete peer.id ∧
      (s.removePeer peer).pendingPeers = s.pendingPeers.delete peer.id ∧
      (s.removePeer peer).handlers = s.handlers ∧ (s.removePeer peer).closed = s.closed := by
  unfold removePeer
  rw [if_neg peer.id_ne]
  dsimp only
  split <;> exact ⟨rfl, rfl, rfl, rfl⟩

theorem removePeer_shrinks (s : State) : Shrinks s (s.removePeer peer) := by
  obtain ⟨hpeers, hpending, hhandlers, hclosed⟩ := s.removePeer_pools peer
  exact {
    peers := fun id p h => get_of_delete (hpeers ▸ h)
    pendingPeers := fun id p h => get_of_delete (hpending ▸ h)
    size_le := hpeers ▸ s.peers.size_delete_le peer.id
    handlers := hhandlers
    closed := fun c hc => .inl (hclosed ▸ hc) }

theorem emitDisconnected_shrinks (s : State) : Shrinks s (s.emitDisconnected peer) :=
  (emit_shrinks _ s).trans (removePeer_shrinks peer _)

theorem banPeer_shrinks (s : State) : Shrinks s (s.banPeer peer) :=
  ((emit_shrinks _ s).trans (removePeer_shrinks peer _)).trans (emit_shrinks _ _)

theorem peerError_shrinks (s : State) : Shrinks s (s.peerError peer) := by
  unfold peerError
  split
  · exact banPeer_shrinks peer s
  · exact Shrinks.refl s

end

theorem onPeerDisconnect_shrinks (id : String) (s : State) : Shrinks s (s.onPeerDisconnect id) := by
  unfold onPeerDisconnect
  split
  · exact (removePeer_shrinks _ s).trans (emitDisconnected_shrinks _ _)
  · exact Shrinks.refl s

theorem removePeer_vacant (peer : P2PPeer) (s : State) : (s.removePeer peer).Vacant peer.id := by
  obtain ⟨hpeers, hpending, -⟩ := s.removePeer_pools peer
  constructor
  · rw [hpeers, get_delete, if_pos rfl]
  · rw [hpending, get_delete, if_pos rfl]

theorem banPeer_vacant (peer : P2PPeer) (s : State) : (s.banPeer peer).Vacant peer.id :=
  (emit_shrinks _ _).vacant (removePeer_vacant peer _)

theorem onPeerDisconnect_vacant {s : State} (hkeyed : ∀ peer, s.Holds id peer → peer.id = id) :
    (s.onPeerDisconnect id).Vacant id := by
  unfold onPeerDisconnect
  split
  · rename_i peer hfind
    have hid : peer.id = id := hkeyed peer (Option.or_eq_some_iff.mp hfind |>.imp_right And.right)
    exact (emitDisconnected_shrinks peer _).vacant (hid ▸ removePeer_vacant peer s)
  · rename_i hfind
    exact Option.or_eq_none_iff.mp hfind

/-! ## Promotions -/

theorem addPeer_pools (peer : P2PPeer) (s : State) :
    (s.addPeer peer).peers =
        (if s.peers.has peer.id then s.peers else s.peers.set peer.id peer) ∧
      (s.addPeer peer).pendingPeers = s.pendingPeers ∧
      (s.addPeer peer).handlers = s.handlers ∧ (s.addPeer peer).closed = s.closed := by
  unfold addPeer
  split <;> exact ⟨rfl, rfl, rfl, rfl⟩

/-- The listener of `PEER_CONNECTED` finds the peer in the pool, so it adds nothing. -/
theorem promotePeer_pools (maxPeers : Nat) (peer : P2PPeer) (s : State) :
    (s.promotePeer maxPeers peer).peers =
        (if s.peers.has peer.id then s.peers else s.peers.set peer.id peer) ∧
      (s.promotePeer maxPeers peer).pendingPeers = s.pendingPeers.delete peer.id ∧
      (s.promotePeer maxPeers peer).handlers = s.handlers ∧
      (s.promotePeer maxPeers peer).closed = s.closed := by
  obtain ⟨hpeers, hpending, hhandlers, hclosed⟩ := (s.deletePending peer.id).addPeer_pools peer
  have hhas : ((s.deletePending peer.id).addPeer peer).peers.has peer.id = true := by
    rw [hpeers]
    split
    · rename_i h
      exact h
    · simp
  have hconnected : (((s.deletePending peer.id).addPeer peer).emit (.peerConnected peer)).addPeer
      peer = ((s.deletePending peer.id).addPeer peer).emit (.peerConnected peer) := if_pos hhas
  unfold promotePeer emitConnected connected
  rw [hconnected, ite_self]
  exact ⟨hpeers, hpending, hhandlers, hclosed⟩

theorem setHandler_addPeer (h : Nat) (handler : PeerConnectionHandler) (peer : P2PPeer) (s : State) :
    (s.setHandler h handler).addPeer peer = (s.addPeer peer).setHandler h handler := by
  unfold addPeer
  show (if s.peers.has peer.id then _ else _) =
    setHandler h handler (if s.peers.has peer.id then _ else _)
  split <;> rfl

/-- A promotion does not look at the handlers. -/
theorem setHandler_promotePeer (maxPeers h : Nat) (handler : PeerConnectionHandler) (peer : P2PPeer)
    (s : State) : (s.setHandler h handler).promotePeer maxPeers peer =
      (s.promotePeer maxPeers peer).setHandler h handler := by
  have hadd : ((s.setHandler h handler).deletePending peer.id).addPeer peer =
      ((s.deletePending peer.id).addPeer peer).setHandler h handler :=
    setHandler_addPeer h handler peer (s.deletePending peer.id)
  have hagain : ∀ s' : State, ((s'.setHandler h handler).emit (.peerConnected peer)).addPeer peer =
      ((s'.emit (.peerConnected peer)).addPeer peer).setHandler h handler :=
    fun s' => setHandler_addPeer h handler peer (s'.emit (.peerConnected peer))
  unfold promotePeer emitConnected connected
  rw [hadd, hagain]
  show (if maxPeers ≤ ((s.deletePending peer.id).addPeer peer).peers.size then _ else _) =
    setHandler h handler
      (if maxPeers ≤ ((s.deletePending peer.id).addPeer peer).peers.size then _ else _)
  split <;> rfl

end State

/-! ## The invariant -/

/-- The handler has called `exchangeStatus` or will never do so. -/
def Stage.past : Stage → Bool
  | .createPeer => false
  | .exchangeStatus _ => false
  | .sendStatusToPeer _ => true
  | .settled => true

/-- The records of handler `h` fit together. -/
structure PeerConnectionHandler.Coherent (handler : PeerConnectionHandler) (h : Nat) : Prop where
  own : ∀ peer : P2PPeer, handler.peer = some peer → peer.handler = h
  created : ∀ peer : P2PPeer, handler.stage = .exchangeStatus peer → handler.peer = some peer ∧ peer.eth = true
  past : handler.waiting = true → handler.stage.past = true

/-- What the pool promises in every state. -/
structure PoolInvariant (maxPeers : Nat) (s : State) : Prop where
  size_le : s.peers.size ≤ maxPeers
  disjoint : ∀ id, ¬ (s.peers.has id = true ∧ s.pendingPeers.has id = true)
  open_of_holds : ∀ id (peer : P2PPeer), s.Holds id peer → peer.connection ∉ s.closed

structure Invariant (maxPeers : Nat) (s : State) : Prop extends PoolInvariant maxPeers s where
  keyed : ∀ id (peer : P2PPeer), s.Holds id peer → peer.id = id
  handlers : ∀ h (handler : PeerConnectionHandler), s.handlers[h]? = some handler →
    handler.Coherent h

/-- A peer that has left the pool, and whose handler will not put it back. -/
structure State.Gone (s : State) (peer : P2PPeer) : Prop where
  absent : ∀ id, ¬ s.Holds id peer
  past : ∃ handler, s.handlers[peer.handler]? = some handler ∧ handler.stage.past = true ∧
    handler.peer = some peer

namespace Invariant

variable {maxPeers : Nat} {s : State}

theorem init (maxPeers : Nat) : Invariant maxPeers .init where
  size_le := Nat.zero_le _
  disjoint := fun _ h => Bool.false_ne_true h.1
  open_of_holds := fun _ _ h => h.elim nofun nofun
  keyed := fun _ _ h => h.elim nofun nofun
  handlers := fun _ _ h => nomatch h

theorem has_of_get {m : OrderedMap String P2PPeer} {id : String} :
    m.has id = true ↔ ∃ peer, m.get id = some peer := isSome_iff_exists

theorem shrinks (hs : Invariant maxPeers s) {s' : State} (h : s.Shrinks s') :
    Invariant maxPeers s' where
  size_le := Nat.le_trans h.size_le hs.size_le
  disjoint := by
    intro id ⟨hpeers, hpending⟩
    obtain ⟨peer, hpeer⟩ := has_of_get.mp hpeers
    obtain ⟨peer', hpeer'⟩ := has_of_get.mp hpending
    exact hs.disjoint id ⟨has_of_get.mpr ⟨peer, h.peers id peer hpeer⟩,
      has_of_get.mpr ⟨peer', h.pendingPeers id peer' hpeer'⟩⟩
  open_of_holds := by
    intro id peer hpeer hclosed
    have hid : peer.id = id := hs.keyed id peer (h.holds hpeer)
    cases h.closed _ hclosed with
    | inl hold => exact hs.open_of_holds id peer (h.holds hpeer) hold
    | inr hvacant =>
      rw [show peer.connection.remotePeer = id from hid] at hvacant
      cases hpeer with
      | inl hp => cases hvacant.1.symm.trans hp
      | inr hp => cases hvacant.2.symm.trans hp
  keyed := fun id peer hpeer => hs.keyed id peer (h.holds hpeer)
  handlers := h.handlers ▸ hs.handlers

/-- A handler that is replaced by a coherent one. -/
theorem setHandler (hs : Invariant maxPeers s) {h : Nat} {handler : PeerConnectionHandler}
    (hcoherent : handler.Coherent h) : Invariant maxPeers (s.setHandler h handler) :=
  { hs with
    handlers := by
      intro j handler' hj
      rw [State.setHandler, getElem?_set] at hj
      split at hj
      · rename_i hjh
        split at hj
        · exact some.inj hj ▸ hjh ▸ hcoherent
        · cases hj
      · exact hs.handlers j handler' hj }

variable {peer : P2PPeer}

/-- A peer that becomes pending while its id is not in the pool. -/
theorem pend (hs : Invariant maxPeers s) (hnew : s.peers.has peer.id = false)
    (hopen : peer.connection ∉ s.closed) :
    Invariant maxPeers { s with pendingPeers := s.pendingPeers.set peer.id peer } := by
  have hold : ∀ id p, State.Holds { s with pendingPeers := s.pendingPeers.set peer.id peer } id p →
      s.Holds id p ∨ (id = peer.id ∧ p = peer) := by
    intro id p hp
    cases hp with
    | inl hp => exact .inl (.inl hp)
    | inr hp =>
      rw [get_set] at hp
      split at hp
      · rename_i hid
        exact .inr ⟨hid, (some.inj hp).symm⟩
      · exact .inl (.inr hp)
  exact {
    size_le := hs.size_le
    disjoint := by
      rintro id ⟨hpeers, hpending⟩
      rw [has_set] at hpending
      by_cases hid : id = peer.id
      · exact Bool.false_ne_true ((hnew.symm.trans (hid ▸ hpeers)))
      · exact hs.disjoint id ⟨hpeers, by simpa [hid] using hpending⟩
    open_of_holds := by
      intro id p hp
      cases hold id p hp with
      | inl hp => exact hs.open_of_holds id p hp
      | inr hp => exact hp.2 ▸ hopen
    keyed := by
      intro id p hp
      cases hold id p hp with
      | inl hp => exact hs.keyed id p hp
      | inr hp => exact hp.2 ▸ hp.1.symm
    handlers := hs.handlers }

/-- What the pool holds after a promotion. -/
theorem holds_promotePeer {p : P2PPeer} {id : String}
    (hp : (s.promotePeer maxPeers peer).Holds id p) : s.Holds id p ∨ (id = peer.id ∧ p = peer) := by
  obtain ⟨hpeers, hpending, -⟩ := s.promotePeer_pools maxPeers peer
  cases hp with
  | inl hp =>
    rw [hpeers] at hp
    split at hp
    · exact .inl (.inl hp)
    · rw [get_set] at hp
      split at hp
      · rename_i hid
        exact .inr ⟨hid, (some.inj hp).symm⟩
      · exact .inl (.inl hp)
  | inr hp => exact .inl (.inr (State.get_of_delete (hpending ▸ hp)))

/-- A peer of an open connection becomes active while its id is in the pool already, or while
there is a free place. -/
theorem promote (hs : Invariant maxPeers s)
    (hopen : s.peers.has peer.id = false → peer.connection ∉ s.closed)
    (hfree : s.peers.has peer.id = false → s.peers.size < maxPeers) :
    Invariant maxPeers (s.promotePeer maxPeers peer) := by
  obtain ⟨hpeers, hpending, hhandlers, hclosed⟩ := s.promotePeer_pools maxPeers peer
  cases hhas : s.peers.has peer.id with
  | true =>
    rw [if_pos hhas] at hpeers
    exact hs.shrinks {
      peers := fun id p hp => hpeers ▸ hp
      pendingPeers := fun id p hp => State.get_of_delete (hpending ▸ hp)
      size_le := hpeers ▸ Nat.le_refl _
      handlers := hhandlers
      closed := fun c hc => .inl (hclosed ▸ hc) }
  | false =>
    rw [if_neg (hhas ▸ Bool.false_ne_true)] at hpeers
    exact {
      size_le := hpeers ▸ Nat.le_trans (s.peers.size_set_le _ _) (hfree hhas)
      disjoint := by
        intro id ⟨hp, hq⟩
        rw [hpeers, has_set] at hp
        rw [hpending, has_delete] at hq
        by_cases hid : id = peer.id
        · simp [hid] at hq
        · exact hs.disjoint id ⟨by simpa [hid] using hp, by simpa [hid] using hq⟩
      open_of_holds := by
        intro id p hp
        rw [hclosed]
        cases holds_promotePeer hp with
        | inl hp => exact hs.open_of_holds id p hp
        | inr hp => exact hp.2 ▸ hopen hhas
      keyed := by
        intro id p hp
        cases holds_promotePeer hp with
        | inl hp => exact hs.keyed id p hp
        | inr hp => exact hp.2 ▸ hp.1.symm
      handlers := hhandlers ▸ hs.handlers }

end Invariant

/-! ## Steps -/

/-- A callback of handler `h` that goes on finds its own peer pending and a free place. -/
def State.mayPromote (maxPeers : Nat) (s : State) (h : Nat) : Bool :=
  match s.handlers[h]? with
  | some ⟨_, _, some peer, _, true⟩ =>
    !s.pendingPeers.has peer.id ||
      (decide (s.pendingPeers.get peer.id = some peer) && decide (s.peers.size < maxPeers))
  | _ => true

variable {h : Nat} {peer : P2PPeer}

theorem State.mayPromote_spec {maxPeers : Nat} {s : State} {handler : PeerConnectionHandler}
    (hmay : s.mayPromote maxPeers h = true) (hget : s.handlers[h]? = some handler)
    (hwaiting : handler.waiting = true) (hpeer : handler.peer = some peer)
    (hhas : s.pendingPeers.has peer.id = true) :
    s.pendingPeers.get peer.id = some peer ∧ s.peers.size < maxPeers := by
  obtain ⟨connection, stage, made, statusExchanged, waiting⟩ := handler
  subst hwaiting hpeer
  simpa [mayPromote, hget, hhas] using hmay

/-- The condition on a step: a peer that becomes pending has an id that is not in the pool and
a connection that is open; a peer is promoted only into a free place, and by a callback only
while it is the one pending. -/
def Event.orderly (maxPeers : Nat) (s : State) : Event → Bool
  | .exchangeStatus h =>
    match s.handlers[h]? with
    | some ⟨_, .exchangeStatus peer, _, true, _⟩ =>
      s.peers.has peer.id ||
        (decide (peer.connection ∉ s.closed) && decide (s.peers.size < maxPeers))
    | some ⟨_, .exchangeStatus peer, _, false, _⟩ =>
      !s.peers.has peer.id && decide (peer.connection ∉ s.closed)
    | _ => true
  | .status h => s.mayPromote maxPeers h
  | .statusTimeout h => s.mayPromote maxPeers h
  | _ => true

/-- A step that keeps the invariant and takes no peer back. -/
structure Keeps (maxPeers : Nat) (s s' : State) : Prop where
  invariant : Invariant maxPeers s'
  gone : ∀ peer, s.Gone peer → s'.Gone peer

namespace Keeps

variable {maxPeers : Nat} {s s' : State}

theorem trans {s'' : State} (h : Keeps maxPeers s s') (h' : Keeps maxPeers s' s'') :
    Keeps maxPeers s s'' where
  invariant := h'.invariant
  gone := fun peer hpeer => h'.gone peer (h.gone peer hpeer)

variable (hs : Invariant maxPeers s)
include hs

theorem shrinks (h : s.Shrinks s') : Keeps maxPeers s s' where
  invariant := hs.shrinks h
  gone := fun _ hpeer =>
    { absent := fun id hid => hpeer.absent id (h.holds hid)
      past := h.handlers ▸ hpeer.past }

theorem refl : Keeps maxPeers s s := shrinks hs (.refl s)

theorem setHandler {h : Nat} {old handler : PeerConnectionHandler}
    (hold : s.handlers[h]? = some old) (hcoherent : handler.Coherent h)
    (hpast : old.stage.past = true → handler.stage.past = true ∧ handler.peer = old.peer) :
    Keeps maxPeers s (s.setHandler h handler) where
  invariant := hs.setHandler hcoherent
  gone := by
    intro peer hpeer
    refine { absent := hpeer.absent, past := ?_ }
    obtain ⟨handler', hget, hpast', hmade⟩ := hpeer.past
    have hlt : h < s.handlers.length := (List.getElem?_eq_some_iff.mp hold).1
    cases Nat.decEq h peer.handler with
    | isTrue heq =>
      subst heq
      rw [hold] at hget
      obtain rfl := some.inj hget
      exact ⟨handler, getElem?_set_self hlt, (hpast hpast').1, (hpast hpast').2.trans hmade⟩
    | isFalse hne => exact ⟨handler', (getElem?_set_ne hne).trans hget, hpast', hmade⟩

/-- A handler that starts. -/
theorem start (connection : Connection) : Keeps maxPeers s
      { s with handlers := s.handlers ++ [⟨connection, .createPeer, none, false, false⟩] } where
  invariant :=
    { hs with
      handlers := by
        intro h handler hget
        cases Nat.lt_or_ge h s.handlers.length with
        | inl hlt => exact hs.handlers h handler ((getElem?_append_left hlt).symm.trans hget)
        | inr hge =>
          rw [getElem?_append_right hge] at hget
          have hmem := mem_of_getElem? hget
          rw [mem_singleton.mp hmem]
          exact ⟨nofun, nofun, nofun⟩ }
  gone := by
    intro peer hpeer
    refine { absent := hpeer.absent, past := ?_ }
    obtain ⟨handler, hget, hpast, hmade⟩ := hpeer.past
    have hlt := (List.getElem?_eq_some_iff.mp hget).1
    exact ⟨handler, (getElem?_append_left hlt).trans hget, hpast, hmade⟩

theorem pend {peer : P2PPeer} (hnew : s.peers.has peer.id = false)
    (hopen : peer.connection ∉ s.closed) (hcomes : ¬ s.Gone peer) :
    Keeps maxPeers s { s with pendingPeers := s.pendingPeers.set peer.id peer } where
  invariant := hs.pend hnew hopen
  gone := by
    intro q hq
    refine { absent := ?_, past := hq.past }
    intro id hid
    cases hid with
    | inl hid => exact hq.absent id (.inl hid)
    | inr hid =>
      rw [get_set] at hid
      split at hid
      · exact hcomes (some.inj hid ▸ hq)
      · exact hq.absent id (.inr hid)

theorem promote {peer : P2PPeer} (hopen : s.peers.has peer.id = false → peer.connection ∉ s.closed)
    (hfree : s.peers.has peer.id = false → s.peers.size < maxPeers) (hcomes : ¬ s.Gone peer) :
    Keeps maxPeers s (s.promotePeer maxPeers peer) where
  invariant := hs.promote hopen hfree
  gone := by
    intro q hq
    refine { absent := ?_, past := (s.promotePeer_pools maxPeers peer).2.2.1 ▸ hq.past }
    intro id hid
    cases Invariant.holds_promotePeer hid with
    | inl hid => exact hq.absent id hid
    | inr hid => exact hcomes (hid.2 ▸ hq)

end Keeps

section Step

variable {maxPeers : Nat} {s : State}

/-- A pending peer is none that has gone. -/
theorem not_gone_of_pending {peer : P2PPeer} (h : s.pendingPeers.get peer.id = some peer) :
    ¬ s.Gone peer := fun hgone => hgone.absent peer.id (.inr h)

variable {h : Nat} {handler : PeerConnectionHandler}

theorem createPeer_keeps (hs : Invariant maxPeers s) (hget : s.handlers[h]? = some handler)
    (hstage : handler.stage = .createPeer) (constructed : Constructed) :
    Keeps maxPeers s (s.createPeer maxPeers h handler constructed) := by
  have hcoherent := hs.handlers h handler hget
  have hpast : handler.stage.past = false := hstage ▸ rfl
  have hidle : handler.waiting = true → False := fun hw =>
    Bool.false_ne_true (hpast.symm.trans (hcoherent.past hw))
  have hfresh {handler' : PeerConnectionHandler} (hp : handler.stage.past = true) :
      handler'.stage.past = true ∧ handler'.peer = handler.peer :=
    (Bool.false_ne_true (hpast.symm.trans hp)).elim
  unfold State.createPeer
  dsimp only
  split
  · exact .setHandler hs hget ⟨hcoherent.own, nofun, fun _ => rfl⟩ hfresh
  · cases constructed with
    | throws => exact .setHandler hs hget ⟨hcoherent.own, nofun, fun _ => rfl⟩ hfresh
    | noEth =>
      refine .setHandler hs hget ⟨?_, nofun, fun _ => rfl⟩ hfresh
      intro peer hpeer
      exact some.inj hpeer ▸ rfl
    | eth =>
      refine .setHandler hs hget ⟨?_, ?_, fun hw => (hidle hw).elim⟩ hfresh
      · intro peer hpeer
        exact some.inj hpeer ▸ rfl
      · intro peer hpeer
        cases hpeer
        exact ⟨rfl, rfl⟩

/-- The peer is pending for the moment before its promotion. -/
theorem pend_promote_shrinks (s : State) (peer : P2PPeer) : (s.promotePeer maxPeers peer).Shrinks
      ({ s with pendingPeers := s.pendingPeers.set peer.id peer }.promotePeer maxPeers peer) := by
  obtain ⟨hpeers, hpending, hhandlers, hclosed⟩ := s.promotePeer_pools maxPeers peer
  obtain ⟨hpeers', hpending', hhandlers', hclosed'⟩ := State.promotePeer_pools maxPeers peer
    { s with pendingPeers := s.pendingPeers.set peer.id peer }
  have hsame := hpeers'.trans hpeers.symm
  exact {
    peers := fun id p hp => hsame ▸ hp
    pendingPeers := by
      intro id p hp
      rw [hpending', get_delete] at hp
      rw [hpending, get_delete]
      split at hp
      · cases hp
      · rename_i hid
        rw [if_neg hid]
        rwa [get_set, if_neg hid] at hp
    size_le := (congrArg OrderedMap.size hsame).le
    handlers := hhandlers'.trans hhandlers.symm
    closed := fun c hc => .inl (hclosed ▸ hclosed' ▸ hc) }

variable (hs : Invariant maxPeers s)
include hs

theorem exchangeStatus_keeps {peer : P2PPeer}
    (hget : s.handlers[h]? = some handler) (hstage : handler.stage = .exchangeStatus peer)
    (horderly : (Event.exchangeStatus h).orderly maxPeers s = true) :
    Keeps maxPeers s (s.exchangeStatus maxPeers h handler peer) := by
  obtain ⟨connection, stage, made, statusExchanged, waiting⟩ := handler
  subst hstage
  have hcoherent := hs.handlers h _ hget
  obtain ⟨hmade, heth⟩ := hcoherent.created peer rfl
  have hh : peer.handler = h := hcoherent.own peer hmade
  have hidle : waiting = true → False := fun hw => Bool.false_ne_true (hcoherent.past hw)
  -- its own handler is still on the way here, so the peer is none that has gone
  have hcomes : ¬ s.Gone peer := by
    intro hgone
    obtain ⟨handler', hget', hpast, -⟩ := hgone.past
    rw [hh, hget] at hget'
    obtain rfl := some.inj hget'
    exact Bool.false_ne_true hpast
  simp only [Event.orderly, hget] at horderly
  unfold State.exchangeStatus State.waitForPeerStatus
  simp only [heth, Bool.not_true, Bool.false_eq_true, if_false]
  have hsent : ∀ exchanged, (⟨connection, .sendStatusToPeer peer, made, exchanged, waiting⟩ :
      PeerConnectionHandler).Coherent h := fun _ => ⟨hcoherent.own, nofun, fun _ => rfl⟩
  cases statusExchanged with
  | true =>
    let pended : State := { s with pendingPeers := s.pendingPeers.set peer.id peer }
    have hfree (hnew : s.peers.has peer.id = false) :
        peer.connection ∉ s.closed ∧ s.peers.size < maxPeers := by
      simpa [hnew] using horderly
    have hpromoted : Keeps maxPeers s (s.promotePeer maxPeers peer) :=
      .promote hs (fun hnew => (hfree hnew).1) (fun hnew => (hfree hnew).2) hcomes
    have hpended : Keeps maxPeers s (pended.promotePeer maxPeers peer) :=
      hpromoted.trans (.shrinks hpromoted.invariant (pend_promote_shrinks s peer))
    have hhandlers : (pended.promotePeer maxPeers peer).handlers[h]? = _ :=
      (congrArg (·[h]?) (pended.promotePeer_pools maxPeers peer).2.2.1).trans hget
    have hhas : pended.pendingPeers.has peer.id = true := by simp [pended]
    rw [if_pos rfl]
    show Keeps maxPeers s ((pended.setHandler h _).promoteIfPending maxPeers peer)
    rw [State.promoteIfPending, if_pos (show (pended.setHandler h _).pendingPeers.has _ = _ from hhas),
      State.setHandler_promotePeer]
    exact hpended.trans (.setHandler hpended.invariant hhandlers (hsent true) (fun _ => ⟨rfl, rfl⟩))
  | false =>
    have hfree : s.peers.has peer.id = false ∧ peer.connection ∉ s.closed := by
      simpa using horderly
    have hpended := Keeps.pend hs hfree.1 hfree.2 hcomes
    have hset := hpended.trans (.setHandler hpended.invariant hget (hsent false)
      (fun _ => ⟨rfl, rfl⟩))
    refine hset.trans (.setHandler hset.invariant (getElem?_set_self ?_)
      ⟨hcoherent.own, nofun, fun _ => rfl⟩ (fun _ => ⟨rfl, rfl⟩))
    exact (List.getElem?_eq_some_iff.mp hget).1

/-- A callback of the status wait, with the record of the handler as it is or after STATUS. -/
theorem statusSettled_keeps (hget : s.handlers[h]? = some handler)
    (horderly : ∀ peer, handler.waiting = true → handler.peer = some peer →
      s.pendingPeers.has peer.id = true →
      s.pendingPeers.get peer.id = some peer ∧ s.peers.size < maxPeers) :
    Keeps maxPeers s (s.statusSettled maxPeers h handler) := by
  have hcoherent := hs.handlers h handler hget
  unfold State.statusSettled
  split
  · rename_i peer hwaiting hpeer
    have hset : Keeps maxPeers s (s.setHandler h { handler with waiting := false }) :=
      .setHandler hs hget ⟨hcoherent.own, hcoherent.created, nofun⟩
        (fun hp => ⟨hp, rfl⟩)
    refine hset.trans ?_
    unfold State.promoteIfPending
    split
    · rename_i hhas
      obtain ⟨hpending, hsize⟩ := horderly peer hwaiting hpeer hhas
      exact .promote hset.invariant (fun _ => hs.open_of_holds peer.id peer (.inr hpending))
        (fun _ => hsize) (not_gone_of_pending hpending)
    · exact .refl hset.invariant
  · exact .refl hs

theorem onConnectionClose_shrinks (connection : Connection) :
    s.Shrinks (s.onConnectionClose connection) := by
  let known : State := { s with closed := connection :: s.closed }
  have hshrinks : known.Shrinks (s.onConnectionClose connection) :=
    State.onPeerDisconnect_shrinks connection.remotePeer known
  have hvacant : (s.onConnectionClose connection).Vacant connection.remotePeer :=
    State.onPeerDisconnect_vacant (hs.keyed connection.remotePeer)
  refine { hshrinks with closed := ?_ }
  intro c hc
  cases hshrinks.closed c hc with
  | inr hgone => exact .inr hgone
  | inl hknown =>
    cases mem_cons.mp hknown with
    | inl hself => exact .inr (hself ▸ hvacant)
    | inr hold => exact .inl hold

theorem step_keeps {event : Event}
    (horderly : event.orderly maxPeers s = true) : Keeps maxPeers s (step maxPeers s event) := by
  -- a step of a handler that does not exist, or that is at another stage, does nothing
  have hresume {h : Nat} {f : PeerConnectionHandler → State}
      (hf : ∀ handler, s.handlers[h]? = some handler → Keeps maxPeers s (f handler)) :
      Keeps maxPeers s (s.resume h f) := by
    unfold State.resume
    split
    · rename_i handler hget
      exact hf handler hget
    · exact .refl hs
  cases event with
  | connectionOpen connection isOpen hasRLPx =>
    unfold step State.onConnectionOpen
    dsimp only
    split
    · exact .start hs connection
    · exact .refl hs
  | connectionClose connection => exact .shrinks hs (onConnectionClose_shrinks hs connection)
  | peerDisconnect id => exact .shrinks hs (State.onPeerDisconnect_shrinks id s)
  | protocolsReady h constructed =>
    refine hresume fun handler hget => ?_
    split
    · rename_i hstage
      exact createPeer_keeps hs hget hstage constructed
    · exact .refl hs
  | noProtocols h =>
    refine hresume fun handler hget => ?_
    split
    · exact .setHandler hs hget ⟨(hs.handlers h handler hget).own, nofun, fun _ => rfl⟩
        (fun _ => ⟨rfl, rfl⟩)
    · exact .refl hs
  | exchangeStatus h =>
    refine hresume fun handler hget => ?_
    split
    · rename_i peer hstage
      exact exchangeStatus_keeps hs hget hstage horderly
    · exact .refl hs
  | sendStatus h throws =>
    refine hresume fun handler hget => ?_
    split
    · have hset : Keeps maxPeers s (s.setHandler h { handler with stage := .settled }) :=
        .setHandler hs hget ⟨(hs.handlers h handler hget).own, nofun, fun _ => rfl⟩
          (fun _ => ⟨rfl, rfl⟩)
      unfold State.sendStatusToPeer
      dsimp only
      split
      · exact hset.trans (.shrinks hset.invariant (State.deletePending_shrinks _ _))
      · exact hset
    · exact .refl hs
  | status h =>
    refine hresume fun handler hget => ?_
    split
    · have hcoherent := hs.handlers h handler hget
      have hset : Keeps maxPeers s (s.setHandler h { handler with statusExchanged := true }) :=
        .setHandler hs hget ⟨hcoherent.own, hcoherent.created, hcoherent.past⟩
          (fun hp => ⟨hp, rfl⟩)
      refine hset.trans (statusSettled_keeps hset.invariant
        (getElem?_set_self (List.getElem?_eq_some_iff.mp hget).1) ?_)
      intro peer hwaiting hpeer hhas
      exact (State.mayPromote_spec horderly hget hwaiting hpeer hhas :)
    · exact .refl hs
  | statusTimeout h =>
    exact hresume fun handler hget => statusSettled_keeps hs hget
      fun _ => State.mayPromote_spec horderly hget
  | removePeer peer => exact .shrinks hs (State.removePeer_shrinks peer s)
  | banPeer peer => exact .shrinks hs (State.banPeer_shrinks peer s)
  | rlpxClose peer => exact .shrinks hs (State.emitDisconnected_shrinks peer s)
  | rlpxError peer => exact .shrinks hs (State.peerError_shrinks peer s)

end Step

/-! ## Runs -/

/-- Every step of the run meets the condition. -/
def Orderly (maxPeers : Nat) : State → List Event → Bool
  | _, [] => true
  | s, event :: events =>
    event.orderly maxPeers s && Orderly maxPeers (step maxPeers s event) events

theorem run_append (maxPeers : Nat) (s : State) (events events' : List Event) :
    run maxPeers s (events ++ events') = run maxPeers (run maxPeers s events) events' :=
  foldl_append

theorem orderly_append {maxPeers : Nat} {s : State} {events events' : List Event} :
    Orderly maxPeers s (events ++ events') = true ↔
      Orderly maxPeers s events = true ∧ Orderly maxPeers (run maxPeers s events) events' = true := by
  induction events generalizing s with
  | nil => simp [Orderly, run]
  | cons event events ih =>
    simp only [cons_append, Orderly, Bool.and_eq_true, ih, and_assoc]
    rfl

theorem run_keeps {maxPeers : Nat} {s : State} {events : List Event} (hs : Invariant maxPeers s)
    (horderly : Orderly maxPeers s events = true) : Keeps maxPeers s (run maxPeers s events) := by
  induction events generalizing s with
  | nil => exact .refl hs
  | cons event events ih =>
    obtain ⟨hstep, hrest⟩ := (Bool.and_eq_true ..).mp horderly
    have hkeeps := step_keeps hs hstep
    exact hkeeps.trans (ih hkeeps.invariant hrest)

/-- The calls and events that take the peer of an id out of the pool. -/
def Event.removes (id : String) : Event → Prop
  | .removePeer peer => peer.id = id
  | .banPeer peer => peer.id = id
  | .connectionClose connection => connection.remotePeer = id
  | .peerDisconnect id' => id' = id
  | .rlpxClose peer => peer.id = id
  | _ => False

variable {maxPeers : Nat} {s : State}

variable {event : Event}

theorem vacant_of_removes (hs : Invariant maxPeers s) {id : String} (h : event.removes id) :
    (step maxPeers s event).Vacant id := by
  cases event with
  | removePeer peer => exact h ▸ State.removePeer_vacant peer s
  | banPeer peer => exact h ▸ State.banPeer_vacant peer s
  | connectionClose connection => exact h ▸ State.onPeerDisconnect_vacant (hs.keyed _)
  | peerDisconnect id' => exact h ▸ State.onPeerDisconnect_vacant (hs.keyed _)
  | rlpxClose peer => exact h ▸ State.removePeer_vacant peer _
  | _ => cases h

/-- No removal touches the handlers. -/
theorem shrinks_of_removes (hs : Invariant maxPeers s) {id : String} (h : event.removes id) :
    s.Shrinks (step maxPeers s event) := by
  cases event with
  | removePeer peer => exact State.removePeer_shrinks peer s
  | banPeer peer => exact State.banPeer_shrinks peer s
  | connectionClose connection => exact onConnectionClose_shrinks hs connection
  | peerDisconnect id' => exact State.onPeerDisconnect_shrinks id' s
  | rlpxClose peer => exact State.emitDisconnected_shrinks peer s
  | _ => cases h

/-- The listener and the timer of handler `h` are running for its peer. -/
def Waits (s : State) (h : Nat) (peer : P2PPeer) : Prop :=
  ∃ handler, s.handlers[h]? = some handler ∧ handler.waiting = true ∧ handler.peer = some peer

theorem gone_of_removes (hs : Invariant maxPeers s) (hwaits : Waits s h peer)
    (hremoves : event.removes peer.id) : (step maxPeers s event).Gone peer := by
  obtain ⟨handler, hget, hwaiting, hpeer⟩ := hwaits
  have hcoherent := hs.handlers h handler hget
  have hshrinks := shrinks_of_removes hs hremoves
  obtain ⟨hactive, hpending⟩ := vacant_of_removes hs hremoves
  refine { absent := ?_, past := ⟨handler, ?_, hcoherent.past hwaiting, hpeer⟩ }
  · intro id hid
    obtain rfl := hs.keyed id peer (hshrinks.holds hid)
    cases hid with
    | inl hid => cases hactive.symm.trans hid
    | inr hid => cases hpending.symm.trans hid
  · rw [hshrinks.handlers, hcoherent.own peer hpeer]
    exact hget

/-- The callbacks of a peer that is gone add nothing. -/
theorem statusSettled_peers {handler : PeerConnectionHandler} (habsent : ∀ id, ¬ s.Holds id peer)
    (hmade : handler.peer = some peer)
    (hmay : ∀ peer, handler.waiting = true → handler.peer = some peer →
      s.pendingPeers.has peer.id = true → s.pendingPeers.get peer.id = some peer) :
    (s.statusSettled maxPeers h handler).peers = s.peers := by
  unfold State.statusSettled
  split
  · rename_i peer' hwaiting hmade'
    unfold State.promoteIfPending
    split
    · rename_i hhas
      obtain rfl := some.inj (hmade.symm.trans hmade')
      exact (habsent _ (.inr (hmay _ hwaiting hmade hhas))).elim
    · rfl
  · rfl

theorem callback_peers (hgone : s.Gone peer)
    (hevent : event = .status peer.handler ∨ event = .statusTimeout peer.handler)
    (horderly : event.orderly maxPeers s = true) : (step maxPeers s event).peers = s.peers := by
  obtain ⟨handler, hget, -, hmade⟩ := hgone.past
  cases hevent with
  | inl hevent =>
    subst hevent
    simp only [step, State.resume, hget]
    split
    · refine statusSettled_peers (fun id hid => hgone.absent id hid) hmade ?_
      intro p hw hp hhas
      exact (State.mayPromote_spec horderly hget hw hp hhas :).1
    · rfl
  | inr hevent =>
    subst hevent
    simp only [step, State.resume, hget]
    exact statusSettled_peers hgone.absent hmade fun p hw hp hhas =>
      (State.mayPromote_spec horderly hget hw hp hhas).1

/-- In an orderly run the pool keeps its promises in every state, and a peer that has been
removed while its listener and its timer were running is not added by them. -/
theorem pool_sound {maxPeers : Nat} {events : List Event}
    (horderly : Orderly maxPeers .init events = true) :
    PoolInvariant maxPeers (run maxPeers .init events) ∧
      ∀ (before between : List Event) (removal callback : Event) (peer : P2PPeer),
        events = before ++ removal :: between ++ [callback] →
        Waits (run maxPeers .init before) peer.handler peer → removal.removes peer.id →
        callback = .status peer.handler ∨ callback = .statusTimeout peer.handler →
        (run maxPeers .init events).peers =
          (run maxPeers .init (before ++ removal :: between)).peers := by
  have hinit := Invariant.init maxPeers
  refine ⟨(run_keeps hinit horderly).invariant.toPoolInvariant, ?_⟩
  intro before between removal callback peer hevents hwaits hremoves hcallback
  subst hevents
  obtain ⟨hfirst, hlast⟩ := orderly_append.mp horderly
  obtain ⟨hbefore, hrest⟩ := orderly_append.mp hfirst
  obtain ⟨hremoval, hbetween⟩ := (Bool.and_eq_true ..).mp hrest
  have hs := (run_keeps hinit hbefore).invariant
  have hgone := gone_of_removes hs hwaits hremoves
  have hlater : (run maxPeers .init (before ++ removal :: between)).Gone peer := by
    rw [run_append]
    exact (run_keeps (step_keeps hs hremoval).invariant hbetween).gone peer hgone
  rw [run_append]
  exact callback_peers hlater hcallback ((Bool.and_eq_true ..).mp hlast).1

section Sample

def connectionTo (number : Nat) (remotePeer : String) (named : remotePeer ≠ "" := by decide) :
    Connection := ⟨number, remotePeer, named⟩

/-- Handler `h` of a new connection gets as far as the status wait. -/
def admission (h : Nat) (connection : Connection) : List Event :=
  [.connectionOpen connection true true, .protocolsReady h .eth, .exchangeStatus h]

def samplePeer : P2PPeer := ⟨0, connectionTo 0 "aa", true⟩

/-- A pending peer is banned, and then its timer expires. -/
def banned : List Event := admission 0 (connectionTo 0 "aa") ++ [.banPeer samplePeer, .statusTimeout 0]

theorem pool_sound_banned : PoolInvariant 1 (run 1 .init banned) ∧ (run 1 .init banned).peers =
      (run 1 .init (admission 0 (connectionTo 0 "aa") ++ [.banPeer samplePeer])).peers := by
  obtain ⟨hinvariant, hback⟩ :=
    pool_sound (show Orderly 1 .init banned = true by decide +kernel)
  refine ⟨hinvariant, hback _ [] (.banPeer samplePeer) (.statusTimeout 0) samplePeer rfl ?_ rfl
    (.inr rfl)⟩
  exact ⟨_, rfl, rfl, rfl⟩

/-- Two peers are pending for one place. -/
def crowd : List Event :=
  admission 0 (connectionTo 0 "aa") ++ admission 1 (connectionTo 1 "bb") ++ [.status 0, .status 1]

/-- Two connections of one id pass `createPeer` together. -/
def twins : List Event :=
  [.connectionOpen (connectionTo 0 "aa") true true, .connectionOpen (connectionTo 1 "aa") true true,
    .protocolsReady 0 .eth, .protocolsReady 1 .eth, .exchangeStatus 0, .status 0, .exchangeStatus 1]

/-- A connection is closed while its handler waits for protocols. -/
def lateClose : List Event :=
  [.connectionOpen (connectionTo 0 "aa") true true, .connectionClose (connectionTo 0 "aa"),
    .protocolsReady 0 .eth, .exchangeStatus 0]

/-- A banned peer whose timer expires while a new connection of its id is pending. -/
def revival : List Event :=
  admission 0 (connectionTo 0 "aa") ++ [.banPeer samplePeer] ++ admission 1 (connectionTo 1 "aa")

theorem pool_unsound : (run 1 .init crowd).peers.size = 2 ∧
      ((run 2 .init twins).peers.has "aa" = true ∧
        (run 2 .init twins).pendingPeers.has "aa" = true) ∧
      ((run 1 .init lateClose).pendingPeers.get "aa" = some samplePeer ∧
        samplePeer.connection ∈ (run 1 .init lateClose).closed) ∧
      ((run 1 .init revival).peers.has "aa" = false ∧
        (run 1 .init (revival ++ [.statusTimeout 0])).peers.get "aa" = some samplePeer) := by
  decide +kernel

end Sample

end NetworkCore
