-- SUMMARY: What the actions of an RLPx connection are made of, and the relations that whole runs keep since every part keeps them.
import TsEthereum.P2p.Identity

/-!
# Changes

A relation between the states before and after is kept by every run where it is
kept by the basic changes: a call of the session, a step in the reading of the stream, and
what touches neither. One lemma for each action of a connection.
-/

open List

namespace Rlpx

open Program

namespace Connection

variable {env : Env}

/-- The functions of the session that a connection calls. -/
inductive SessionCall (env : Env) : {α : Type} → Program Fault ECIES α → Prop
  | createBlockHeader (size : Nat) : SessionCall env (ECIES.createBlockHeader env.crypto size)
  | createBody (data : Bytes) : SessionCall env (ECIES.createBody env.crypto data)
  | createAck (draw : Draw) (pad : Bytes) (gotEIP8Auth : Bool) :
    SessionCall env (if gotEIP8Auth then ECIES.createAckEIP8 env.crypto draw pad
      else ECIES.createAckOld env.crypto draw)
  | parseAuthPlain (data : Bytes) : SessionCall env (ECIES.parseAuthPlain env.crypto data none)
  | parseAuthEIP8 (data : Bytes) : SessionCall env (ECIES.parseAuthEIP8 env.crypto data)
  | parseAckPlain (data : Bytes) : SessionCall env (ECIES.parseAckPlain env.crypto data none)
  | parseAckEIP8 (data : Bytes) : SessionCall env (ECIES.parseAckEIP8 env.crypto data)
  | gotEIP8Auth : SessionCall env (modify fun e => { e with gotEIP8Auth := true })
  | gotEIP8Ack : SessionCall env (modify fun e => { e with gotEIP8Ack := true })
  | parseHeader (data : Bytes) : SessionCall env (ECIES.parseHeader env.crypto data)
  | parseBody (data : Bytes) : SessionCall env (ECIES.parseBody env.crypto data)

/-- The relation is kept by what sending consists of: calls of the session, writes, events, and
the HELLO that was sent. -/
structure Outgoing (env : Env) (R : Connection → Connection → Prop) : Prop where
  session : ∀ {α : Type} {p : Program Fault ECIES α}, SessionCall env p → ∀ c : Connection,
    R c { c with eciesSession := (p c.eciesSession).2 }
  write : ∀ (c : Connection) (data : Bytes), R c { c with written := c.written ++ data }
  emit : ∀ (c : Connection) (event : Event), R c { c with emitted := c.emitted ++ [event] }
  weHello : ∀ (c : Connection) (payload : Rlp.Item), R c { c with weHello := some payload }

namespace Outgoing

variable {R : Connection → Connection → Prop} (h : Outgoing env R)

include h

theorem keeps_withSession {α : Type} {p : Program Fault ECIES α} (hp : SessionCall env p) :
    (withSession p).Keeps R :=
  keeps_onPart fun c => h.session hp c

theorem keeps_write (data : Bytes) : (Connection.write data).Keeps R := keeps_modify fun c => h.write c data

theorem keeps_emit (event : Event) : (Connection.emit event).Keeps R := keeps_modify fun c => h.emit c event

variable [IsPreorder Connection R]

theorem keeps_writeUnlessDestroyed (bytes : Option Bytes) {next : Action Bool}
    (hnext : next.Keeps R) : (writeUnlessDestroyed bytes next).Keeps R := by
  unfold writeUnlessDestroyed
  apply keeps_bind keeps_get
  intro c
  cases bytes with
  | none => exact keeps_pure false
  | some bytes =>
    apply keeps_ite (keeps_pure false)
    exact keeps_bind (h.keeps_write bytes) fun _ => hnext

theorem keeps_sendMessage (code : Nat) (data : Bytes) : (sendMessage env code data).Keeps R := by
  unfold sendMessage
  apply keeps_bind keeps_get
  intro c
  apply keeps_ite (keeps_pure false)
  apply keeps_bind (h.keeps_withSession (.createBlockHeader _))
  intro header
  apply h.keeps_writeUnlessDestroyed
  apply keeps_bind (h.keeps_withSession (.createBody _))
  intro body
  exact h.keeps_writeUnlessDestroyed body (keeps_pure true)

theorem keeps_onConnect : onConnect.Keeps R :=
  keeps_bind (h.keeps_emit .connect) fun _ => h.keeps_emit .protocolsReady

theorem keeps_sendHello : (sendHello env).Keeps R := by
  unfold sendHello
  apply keeps_bind keeps_get
  intro c
  apply keeps_when
  apply keeps_bind (h.keeps_sendMessage _ _)
  intro sent
  refine keeps_bind (keeps_when (keeps_modify fun c => h.weHello c _)) fun _ => ?_
  exact keeps_when h.keeps_onConnect

theorem keeps_sendPing : (sendPing env).Keeps R := by
  unfold sendPing
  apply keeps_bind keeps_get
  intro c
  exact keeps_bind (h.keeps_sendMessage _ _) fun _ => keeps_pure ()

theorem keeps_sendPong : (sendPong env).Keeps R := by
  unfold sendPong
  apply keeps_bind keeps_get
  intro c
  exact keeps_bind (h.keeps_sendMessage _ _) fun _ => keeps_pure ()

/-- `disconnect` ends what it has been sent for. -/
theorem keeps_disconnect (reason : Nat) (hend : ∀ c : Connection, R c { c with
    disconnectReason := some reason, disconnectWe := some true, closed := true }) :
    (disconnect env reason).Keeps R := by
  unfold disconnect
  apply keeps_bind (h.keeps_sendMessage _ _)
  intro sent
  exact keeps_when (keeps_modify hend)

end Outgoing

/-- Neither the session nor the reading of the stream is touched, and what was written stays
written. -/
structure Aside (c c' : Connection) : Prop where
  session : c'.eciesSession = c.eciesSession
  state : c'.state = c.state
  nextPacketSize : c'.nextPacketSize = c.nextPacketSize
  socketData : c'.socketData = c.socketData
  written : c.written <+: c'.written

/-- The relation is kept by what goes on beside the reading of the stream. -/
structure Laws (env : Env) (R : Connection → Connection → Prop) : Prop where
  aside : ∀ {c c' : Connection}, Aside c c' → R c c'
  session : ∀ {α : Type} {p : Program Fault ECIES α}, SessionCall env p → ∀ c : Connection,
    R c { c with eciesSession := (p c.eciesSession).2 }

/-- The relation is kept by the reading of the stream, too. -/
structure StreamLaws (env : Env) (R : Connection → Connection → Prop) : Prop extends Laws env R where
  buffer : ∀ {c c' : Connection}, c'.state = c.state → c'.eciesSession = c.eciesSession →
    c'.written = c.written → R c c'
  toHeader : ∀ {c c' : Connection}, c'.state = .Header → c'.eciesSession = c.eciesSession →
    c'.written = c.written → R c c'
  toBody : ∀ {c c' : Connection} {data : Bytes} {size : Nat},
    ECIES.parseHeader env.crypto data c.eciesSession = (.ok (some size), c'.eciesSession) →
    c'.state = .Body → c'.written = c.written → R c c'

namespace Laws

variable {R : Connection → Connection → Prop} (h : Laws env R)

include h

theorem outgoing : Outgoing env R where
  session := h.session
  write c data := h.aside ⟨rfl, rfl, rfl, rfl, prefix_append c.written data⟩
  emit _ _ := h.aside ⟨rfl, rfl, rfl, rfl, prefix_refl _⟩
  weHello _ _ := h.aside ⟨rfl, rfl, rfl, rfl, prefix_refl _⟩

theorem keeps_aside {f : Connection → Connection} (hf : ∀ c, Aside c (f c)) : (modify f : Action Unit).Keeps R :=
  keeps_modify fun c => h.aside (hf c)

variable [IsPreorder Connection R]

theorem keeps_disconnect (reason : Nat) : (disconnect env reason).Keeps R :=
  h.outgoing.keeps_disconnect reason fun _ => h.aside ⟨rfl, rfl, rfl, rfl, prefix_refl _⟩

theorem keeps_acceptHello (hello : HelloMessage) : (acceptHello env hello).Keeps R := by
  unfold acceptHello
  apply keeps_bind keeps_get
  intro c
  apply keeps_ite (h.keeps_disconnect _)
  refine keeps_bind (h.keeps_aside fun _ => ⟨rfl, rfl, rfl, rfl, prefix_refl _⟩) fun _ => ?_
  apply keeps_ite (h.keeps_disconnect _)
  refine keeps_bind (h.keeps_aside fun _ => ⟨rfl, rfl, rfl, rfl, prefix_refl _⟩) fun _ => ?_
  exact keeps_when h.outgoing.keeps_onConnect

theorem keeps_handleHello (payload : Rlp.Item) : (handleHello env payload).Keeps R := by
  unfold handleHello
  apply keeps_bind (keeps_ofExcept _)
  intro hello
  refine keeps_bind (h.keeps_aside fun _ => ⟨rfl, rfl, rfl, rfl, prefix_refl _⟩) fun _ => ?_
  apply keeps_bind keeps_get
  intro c
  cases c.remoteId with
  | none =>
    exact keeps_bind (h.keeps_aside fun _ => ⟨rfl, rfl, rfl, rfl, prefix_refl _⟩) fun _ => h.keeps_acceptHello hello
  | some remoteId =>
    apply keeps_bind (keeps_ofExcept _)
    intro equal
    exact keeps_ite (h.keeps_acceptHello hello) (h.keeps_disconnect _)

theorem keeps_handleDisconnect (payload : Rlp.Item) : (handleDisconnect payload).Keeps R := by
  unfold handleDisconnect
  refine keeps_bind (h.keeps_aside fun _ => ⟨rfl, rfl, rfl, rfl, prefix_refl _⟩) fun _ => ?_
  apply keeps_bind (keeps_ofExcept _)
  intro reason
  exact h.keeps_aside fun _ => ⟨rfl, rfl, rfl, rfl, prefix_refl _⟩

theorem keeps_handleMessage (code : Nat) (msg : Rlp.Item) : (handleMessage env code msg).Keeps R := by
  unfold handleMessage
  apply keeps_ite (h.keeps_handleHello msg)
  apply keeps_ite (h.keeps_handleDisconnect msg)
  exact keeps_ite h.outgoing.keeps_sendPong (keeps_pure ())

theorem keeps_handToSubprotocol (obj : ProtocolDescriptor) (code : Nat) (payload : Bytes) :
    (handToSubprotocol env obj code payload).Keeps R := by
  unfold handToSubprotocol
  refine keeps_bind (h.keeps_aside fun _ => ⟨rfl, rfl, rfl, rfl, prefix_refl _⟩) fun _ => ?_
  exact keeps_ite (keeps_throw Fault.handler) (keeps_pure ())

theorem keeps_dispatch (receiver : Receiver) (msgCode : Nat) (origPayload : Bytes) :
    (dispatch env receiver msgCode origPayload).Keeps R := by
  unfold dispatch
  apply keeps_bind keeps_get
  intro c
  apply keeps_bind (keeps_ofExcept _)
  intro payload
  cases receiver with
  | base => exact keeps_bind (keeps_ofExcept _) fun msg => h.keeps_handleMessage msgCode msg
  | subprotocol obj => exact h.keeps_handToSubprotocol obj msgCode payload

theorem keeps_orDisconnect {p : Action Unit} (hp : p.Keeps R) : (orDisconnect env p).Keeps R := by
  unfold orDisconnect
  apply keeps_bind (keeps_attempt hp)
  intro outcome
  cases outcome with
  | ok _ => exact keeps_pure ()
  | error fault => exact keeps_bind (h.keeps_disconnect _) fun _ => h.outgoing.keeps_emit _

theorem keeps_onSocketClose : onSocketClose.Keeps R := by
  unfold onSocketClose
  refine keeps_bind (h.keeps_aside fun _ => ⟨rfl, rfl, rfl, rfl, prefix_refl _⟩) fun _ => ?_
  apply keeps_bind keeps_get
  intro c
  exact keeps_when (h.outgoing.keeps_emit _)

theorem keeps_close : Connection.close.Keeps R := by
  unfold Connection.close
  apply keeps_bind keeps_get
  intro c
  apply keeps_when
  exact keeps_bind (h.keeps_aside fun _ => ⟨rfl, rfl, rfl, rfl, prefix_refl _⟩) fun _ => h.outgoing.keeps_emit _

end Laws

namespace StreamLaws

variable {R : Connection → Connection → Prop} (h : StreamLaws env R)

include h

theorem keeps_handshakeDone (callback : Callback) (bytesCount : Nat) :
    (handshakeDone callback bytesCount).Keeps R :=
  keeps_modify fun _ => h.toHeader rfl rfl rfl

/-- The body is waited for where the header has been read. -/
theorem keeps_handleHeader : (handleHeader env).Keeps R := by
  constructor
  intro c
  apply outcome_of_wp (R c)
  simp only [handleHeader, wp_bind, wp_get, Connection.withSession, wp_onPart]
  have hcall := h.session (.parseHeader (c.socketData.take c.nextPacketSize)) c
  unfold wp
  rcases hrun : ECIES.parseHeader env.crypto (c.socketData.take c.nextPacketSize) c.eciesSession
    with ⟨fault | size, e'⟩
  · rw [hrun] at hcall
    exact hcall
  · cases size with
    | none =>
      rw [hrun] at hcall
      exact hcall
    | some size => exact h.toBody hrun rfl rfl

variable [IsPreorder Connection R]

theorem keeps_sendAck (draw : Draw) (pad : Bytes) : (sendAck env draw pad).Keeps R := by
  unfold sendAck
  apply keeps_bind keeps_get
  intro c
  apply keeps_when
  apply keeps_bind (h.outgoing.keeps_withSession (.createAck draw pad _))
  intro packet
  cases packet with
  | none => exact keeps_pure ()
  | some bytes =>
    apply keeps_bind (h.outgoing.keeps_write bytes)
    intro _
    refine keeps_bind (keeps_modify fun _ => h.toHeader rfl rfl rfl) fun _ => ?_
    exact h.outgoing.keeps_sendHello

theorem keeps_handleAuth : (handleAuth env).Keeps R := by
  unfold handleAuth
  apply keeps_bind keeps_get
  intro c
  apply keeps_ite
  · apply keeps_ite
    · exact keeps_bind (h.outgoing.keeps_withSession (.parseAuthPlain _)) fun _ => h.keeps_handshakeDone _ _
    · apply keeps_bind (h.outgoing.keeps_withSession .gotEIP8Auth)
      intro _
      apply keeps_bind (keeps_ofExcept _)
      intro size
      exact keeps_modify fun _ => h.buffer rfl rfl rfl
  · exact keeps_bind (h.outgoing.keeps_withSession (.parseAuthEIP8 _)) fun _ => h.keeps_handshakeDone _ _

theorem keeps_handleAck : (handleAck env).Keeps R := by
  unfold handleAck
  apply keeps_bind keeps_get
  intro c
  apply keeps_ite
  · apply keeps_ite
    · exact keeps_bind (h.outgoing.keeps_withSession (.parseAckPlain _)) fun _ => h.keeps_handshakeDone _ _
    · apply keeps_bind (h.outgoing.keeps_withSession .gotEIP8Ack)
      intro _
      apply keeps_bind (keeps_ofExcept _)
      intro size
      exact keeps_modify fun _ => h.buffer rfl rfl rfl
  · exact keeps_bind (h.outgoing.keeps_withSession (.parseAckEIP8 _)) fun _ => h.keeps_handshakeDone _ _

theorem keeps_handleBody : (handleBody env).Keeps R := by
  unfold handleBody
  apply keeps_bind keeps_get
  intro c
  apply keeps_bind (h.outgoing.keeps_withSession (.parseBody _))
  intro body
  cases body with
  | none => exact keeps_pure ()
  | some body =>
    refine keeps_bind (keeps_modify fun _ => h.toHeader rfl rfl rfl) fun _ => ?_
    apply keeps_ite (h.keeps_disconnect _)
    generalize getProtocol c _ = found
    cases found with
    | none => exact h.keeps_disconnect _
    | some found =>
      apply keeps_bind (h.keeps_orDisconnect (h.keeps_dispatch _ _ _))
      intro _
      exact keeps_modify fun _ => h.buffer rfl rfl rfl

theorem keeps_step : (reader env).step.Keeps R := by
  apply keeps_bind keeps_get
  intro c
  cases c.state with
  | Auth => exact h.keeps_handleAuth
  | Ack => exact h.keeps_handleAck
  | Header => exact h.keeps_handleHeader
  | Body => exact h.keeps_handleBody

theorem keeps_drain (fuel : Nat) : ((reader env).drain fuel).Keeps R := by
  induction fuel with
  | zero => exact keeps_pure ()
  | succ fuel ih =>
    apply keeps_bind keeps_get
    intro c
    exact keeps_when (keeps_bind h.keeps_step fun _ => ih)

theorem keeps_onSocketData (data : Bytes) : (onSocketData env data).Keeps R := by
  unfold onSocketData
  apply keeps_bind keeps_get
  intro c
  apply keeps_when
  refine keeps_bind (keeps_modify fun _ => h.buffer rfl rfl rfl) fun _ => ?_
  exact h.keeps_orDisconnect (h.keeps_drain _)

theorem respond (c : Connection) (input : Input) : R c (respond env c input) := by
  cases input with
  | data chunk =>
    simp only [Connection.respond]
    split
    · exact refl_of R c
    · exact (h.keeps_onSocketData chunk).outcome c
  | tick draw pad =>
    simp only [Connection.respond]
    split
    · exact refl_of R c
    · rename_i callback rest _
      have hdrop : R c { c with nextTick := rest } := h.aside ⟨rfl, rfl, rfl, rfl, prefix_refl _⟩
      refine trans_of R hdrop ?_
      cases callback with
      | sendAck => exact (h.keeps_sendAck draw pad).outcome _
      | sendHello => exact h.outgoing.keeps_sendHello.outcome _
  | ping => exact h.outgoing.keeps_sendPing.outcome c
  | pingTimeout => exact (h.keeps_disconnect _).outcome c
  | send code data => exact (h.outgoing.keeps_sendMessage code data).outcome c
  | disconnect reason => exact (h.keeps_disconnect reason).outcome c
  | close => exact h.keeps_close.outcome c
  | destroy => exact h.aside ⟨rfl, rfl, rfl, rfl, prefix_refl _⟩
  | socketClose => exact h.keeps_onSocketClose.outcome c

/-- What every basic change keeps is kept by every run. -/
theorem run (c : Connection) (inputs : List Input) : R c (run env c inputs) := by
  induction inputs generalizing c with
  | nil => exact refl_of R c
  | cons input inputs ih => exact trans_of R (h.respond c input) (ih _)

end StreamLaws

end Connection
end Rlpx
