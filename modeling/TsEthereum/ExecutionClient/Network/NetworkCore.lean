-- SUMMARY: The peer pool of the network core and the handler of one connection, as steps between their awaits.
import TsEthereum.Base.OrderedMap

/-!
# NetworkCore

`net/core/network-core.ts` and `net/core/peer-connection-handler.ts`. A step is a call, an
event or the piece of a `PeerConnectionHandler` between two `await`s. Handlers are numbered
in the order in which they start, and a `P2PPeer` is known by the handler that made it.
-/

namespace NetworkCore

/-! ## Data -/

/-- A connection object; its id is the hex string of the remote's public key. -/
structure Connection where
  number : Nat
  remotePeer : String
  named : remotePeer ≠ ""
  deriving DecidableEq

structure P2PPeer where
  handler : Nat
  connection : Connection
  /-- It has an `EthHandler`. -/
  eth : Bool
  deriving DecidableEq

def P2PPeer.id (peer : P2PPeer) : String := peer.connection.remotePeer

theorem P2PPeer.id_ne (peer : P2PPeer) : peer.id ≠ "" := peer.connection.named

/-- What a `PeerConnectionHandler` does when it goes on. -/
inductive Stage where
  | createPeer
  | exchangeStatus (peer : P2PPeer)
  | sendStatusToPeer (peer : P2PPeer)
  | settled
  deriving DecidableEq

structure PeerConnectionHandler where
  connection : Connection
  stage : Stage
  /-- What its constructor call made. -/
  peer : Option P2PPeer
  /-- `_statusExchanged` of the `EthHandler`. -/
  statusExchanged : Bool
  /-- `waitForPeerStatus` has its listener and its timer running. -/
  waiting : Bool
  deriving DecidableEq

/-- What the constructor of `P2PPeer` does. -/
inductive Constructed where
  | throws
  | noEth
  | eth
  deriving DecidableEq

/-- What other parts of the client get to see. -/
inductive Emitted where
  | peerAdded (peer : P2PPeer)
  | peerRemoved (peer : P2PPeer)
  | peerBanned (peer : P2PPeer)
  | peerConnected (peer : P2PPeer)
  | peerDisconnected (peer : P2PPeer)
  | hangUp (remotePeer : String)
  deriving DecidableEq

structure State where
  peers : OrderedMap String P2PPeer
  pendingPeers : OrderedMap String P2PPeer
  handlers : List PeerConnectionHandler
  /-- The connections of the `connection:close` events so far. -/
  closed : List Connection
  emitted : List Emitted

def State.init : State where
  peers := .empty
  pendingPeers := .empty
  handlers := []
  closed := []
  emitted := []

namespace State

def emit (e : Emitted) (s : State) : State := { s with emitted := s.emitted ++ [e] }

def deletePending (id : String) (s : State) : State :=
  { s with pendingPeers := s.pendingPeers.delete id }

def setHandler (h : Nat) (handler : PeerConnectionHandler) (s : State) : State :=
  { s with handlers := s.handlers.set h handler }

/-! ## The pool -/

def addPeer (peer : P2PPeer) (s : State) : State :=
  if s.peers.has peer.id then s
  else { s with peers := s.peers.set peer.id peer }.emit (.peerAdded peer)

def removePeer (peer : P2PPeer) (s : State) : State :=
  if peer.id = "" then s
  else
    let removed := { s with peers := s.peers.delete peer.id }
    (if s.peers.has peer.id then removed.emit (.peerRemoved peer) else removed).deletePending peer.id

def banPeer (peer : P2PPeer) (s : State) : State :=
  ((s.emit (.hangUp peer.connection.remotePeer)).removePeer peer).emit (.peerBanned peer)

/-- The core's listener for `PEER_CONNECTED`; the message queue of an `EthHandler` is empty. -/
def connected (maxPeers : Nat) (peer : P2PPeer) (s : State) : State :=
  if maxPeers ≤ s.peers.size then s else s.addPeer peer

/-- The core's listener for `PEER_DISCONNECTED`. -/
def disconnected (peer : P2PPeer) (s : State) : State := s.removePeer peer

def emitConnected (maxPeers : Nat) (peer : P2PPeer) (s : State) : State :=
  (s.emit (.peerConnected peer)).connected maxPeers peer

def emitDisconnected (peer : P2PPeer) (s : State) : State :=
  (s.emit (.peerDisconnected peer)).disconnected peer

/-- The core's listener for `PEER_ERROR`. -/
def peerError (peer : P2PPeer) (s : State) : State :=
  if s.peers.has peer.id then s.banPeer peer else s

/-! ## From pending to active -/

/-- The lines that `waitForPeerStatus` repeats in each of its callbacks. -/
def promotePeer (maxPeers : Nat) (peer : P2PPeer) (s : State) : State :=
  ((s.deletePending peer.id).addPeer peer).emitConnected maxPeers peer

def promoteIfPending (maxPeers : Nat) (peer : P2PPeer) (s : State) : State :=
  if s.pendingPeers.has peer.id then s.promotePeer maxPeers peer else s

/-- `waitForPeerStatus`, called by handler `h` with its peer. -/
def waitForPeerStatus (maxPeers : Nat) (h : Nat) (handler : PeerConnectionHandler) (peer : P2PPeer)
    (s : State) : State :=
  if !peer.eth then s.promotePeer maxPeers peer
  else if handler.statusExchanged then s.promoteIfPending maxPeers peer
  else s.setHandler h { handler with waiting := true }

/-- `onStatusReceived` and the callback of the timer: nothing once the controller has aborted. -/
def statusSettled (maxPeers : Nat) (h : Nat) (handler : PeerConnectionHandler) (s : State) : State :=
  match handler.waiting, handler.peer with
  | true, some peer =>
    (s.setHandler h { handler with waiting := false }).promoteIfPending maxPeers peer
  | _, _ => s

/-! ## PeerConnectionHandler -/

/-- The rest of `handle` after `waitForProtocols` has resolved, up to the return of `createPeer`. -/
def createPeer (maxPeers : Nat) (h : Nat) (handler : PeerConnectionHandler) (constructed : Constructed)
    (s : State) : State :=
  let id := handler.connection.remotePeer
  if s.peers.has id || s.pendingPeers.has id || maxPeers ≤ s.peers.size then
    s.setHandler h { handler with stage := .settled }
  else
    match constructed with
    | .throws => s.setHandler h { handler with stage := .settled }
    | .noEth =>
      s.setHandler h
        { handler with stage := .settled, peer := some ⟨h, handler.connection, false⟩ }
    | .eth =>
      let peer : P2PPeer := ⟨h, handler.connection, true⟩
      s.setHandler h { handler with stage := .exchangeStatus peer, peer := some peer }

/-- `exchangeStatus` up to its second `await`. -/
def exchangeStatus (maxPeers : Nat) (h : Nat) (handler : PeerConnectionHandler) (peer : P2PPeer)
    (s : State) : State :=
  let handler := { handler with stage := .sendStatusToPeer peer }
  ({ s with pendingPeers := s.pendingPeers.set peer.id peer }.setHandler h handler).waitForPeerStatus
    maxPeers h handler peer

/-- `sendStatusToPeer`, whose `sendStatus` may throw. -/
def sendStatusToPeer (h : Nat) (handler : PeerConnectionHandler) (peer : P2PPeer) (throws : Bool)
    (s : State) : State :=
  let s := s.setHandler h { handler with stage := .settled }
  if throws then s.deletePending peer.id else s

/-! ## The node's events -/

def onConnectionOpen (connection : Connection) (isOpen hasRLPx : Bool) (s : State) : State :=
  if isOpen && hasRLPx then
    { s with handlers := s.handlers ++ [⟨connection, .createPeer, none, false, false⟩] }
  else s

/-- `peers.get(id) || pendingPeers.get(id)`. -/
def find (id : String) (s : State) : Option P2PPeer := (s.peers.get id).or (s.pendingPeers.get id)

def onPeerDisconnect (id : String) (s : State) : State :=
  match s.find id with
  | some peer => (s.removePeer peer).emitDisconnected peer
  | none => s

def onConnectionClose (connection : Connection) (s : State) : State :=
  { s with closed := connection :: s.closed }.onPeerDisconnect connection.remotePeer

end State

/-! ## Steps -/

inductive Event where
  | connectionOpen (connection : Connection) (isOpen hasRLPx : Bool)
  | connectionClose (connection : Connection)
  | peerDisconnect (id : String)
  /-- Handler `h` has waited for its protocols, or in vain. -/
  | protocolsReady (h : Nat) (constructed : Constructed)
  | noProtocols (h : Nat)
  /-- Handler `h` goes on after an `await`. -/
  | exchangeStatus (h : Nat)
  | sendStatus (h : Nat) (throws : Bool)
  /-- A valid STATUS for the peer of handler `h`. -/
  | status (h : Nat)
  /-- The 10 seconds of handler `h` are over. -/
  | statusTimeout (h : Nat)
  | removePeer (peer : P2PPeer)
  | banPeer (peer : P2PPeer)
  /-- `close` and `error` of the RLPx connection of a peer. -/
  | rlpxClose (peer : P2PPeer)
  | rlpxError (peer : P2PPeer)
  deriving DecidableEq

/-- A step of handler `h`; nothing when there is none. -/
def State.resume (s : State) (h : Nat) (f : PeerConnectionHandler → State) : State :=
  match s.handlers[h]? with
  | some handler => f handler
  | none => s

def step (maxPeers : Nat) (s : State) : Event → State
  | .connectionOpen connection isOpen hasRLPx => s.onConnectionOpen connection isOpen hasRLPx
  | .connectionClose connection => s.onConnectionClose connection
  | .peerDisconnect id => s.onPeerDisconnect id
  | .protocolsReady h constructed => s.resume h fun handler =>
      match handler.stage with
      | .createPeer => s.createPeer maxPeers h handler constructed
      | _ => s
  | .noProtocols h => s.resume h fun handler =>
      match handler.stage with
      | .createPeer => s.setHandler h { handler with stage := .settled }
      | _ => s
  | .exchangeStatus h => s.resume h fun handler =>
      match handler.stage with
      | .exchangeStatus peer => s.exchangeStatus maxPeers h handler peer
      | _ => s
  | .sendStatus h throws => s.resume h fun handler =>
      match handler.stage with
      | .sendStatusToPeer peer => s.sendStatusToPeer h handler peer throws
      | _ => s
  | .status h => s.resume h fun handler =>
      match handler.peer with
      | some ⟨_, _, true⟩ =>
        let handler := { handler with statusExchanged := true }
        (s.setHandler h handler).statusSettled maxPeers h handler
      | _ => s
  | .statusTimeout h => s.resume h fun handler => s.statusSettled maxPeers h handler
  | .removePeer peer => s.removePeer peer
  | .banPeer peer => s.banPeer peer
  | .rlpxClose peer => s.emitDisconnected peer
  | .rlpxError peer => s.peerError peer

def run (maxPeers : Nat) (s : State) (events : List Event) : State := events.foldl (step maxPeers) s

end NetworkCore
