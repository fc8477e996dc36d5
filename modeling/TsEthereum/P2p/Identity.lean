-- SUMMARY: Who the peer of an RLPx connection is: when the identity in use is the one that the handshake authenticated.
import TsEthereum.P2p.Framing

/-!
# Identity

Any run of one connection against any peer: whatever arrives, in whatever chunks,
between whatever its own side does. The identity of an inbound connection comes from
the peer's HELLO. The runs are told apart by the HELLO messages that were accepted.
-/

open List Option

namespace Rlpx

open ECIES

namespace Connection

open Program

/-! ## Runs -/

/-- What can happen to a connection. -/
inductive Input where
  | data (chunk : Bytes)
  /-- The next callback of `process.nextTick`, with the random bytes that it draws. -/
  | tick (draw : Draw) (pad : Bytes)
  | ping
  | pingTimeout
  | send (code : Nat) (data : Bytes)
  | disconnect (reason : Nat)
  | close
  /-- The socket fails. -/
  | destroy
  | socketClose

def runCallback (env : Env) (draw : Draw) (pad : Bytes) : Callback → Action Unit
  | .sendAck => sendAck env draw pad
  | .sendHello => sendHello env

/-- An exception that nobody catches leaves what was written. -/
def respond (env : Env) (c : Connection) : Input → Connection
  -- a socket that was destroyed delivers nothing more
  | .data chunk => if c.destroyed then c else (onSocketData env chunk c).2
  | .tick draw pad =>
    match c.nextTick with
    | [] => c
    | callback :: rest => (runCallback env draw pad callback { c with nextTick := rest }).2
  | .ping => (sendPing env c).2
  | .pingTimeout => (Connection.disconnect env DISCONNECT_REASON.TIMEOUT c).2
  | .send code data => (sendMessage env code data c).2
  | .disconnect reason => (Connection.disconnect env reason c).2
  | .close => (Connection.close c).2
  | .destroy => { c with destroyed := true }
  | .socketClose => (onSocketClose c).2

def run (env : Env) (c : Connection) (inputs : List Input) : Connection :=
  inputs.foldl (respond env) c

/-- How connections start: the listener does not know its peer, the dialler does, and its
constructor has sent the authentication packet. -/
inductive Started (env : Env) : Connection → Prop
  | inbound (options : Options) (privateKey nonce ephemeral : Bytes)
      (hdirection : options.direction = .inbound) :
      Started env (created env options privateKey none nonce ephemeral)
  | outbound (options : Options) (privateKey remoteId nonce ephemeral : Bytes) (draw : Draw)
      (pad : Bytes) (c : Connection) (hdirection : options.direction = .outbound)
      (hnew : new env options privateKey (some remoteId) nonce ephemeral draw pad = (.ok (), c)) :
      Started env c

/-! ## Identities -/

/-- The id is the node id of the public key. -/
def IdOf (id : HelloId) (key : Option Bytes) : Prop :=
  ∃ bytes, id = some (.bytes bytes) ∧ key = some (id2pk bytes)

/-- `getId()` is the node id of the key that the session has authenticated. -/
def Authentic (c : Connection) : Prop :=
  ∃ id, c.getId = some id ∧ IdOf id c.eciesSession.remotePublicKey

/-- Each HELLO that was accepted came before any 'connect', and one that named the peer of an
inbound connection named the one that had authenticated itself. -/
def Trusted (c : Connection) : Prop :=
  ∀ h ∈ c.accepted, h.again = false ∧
    (c.options.direction = .inbound → IdOf h.id h.remotePublicKey)

/-- The handshake packets are through. -/
def Late (c : Connection) : Prop := c.state = .Header ∨ c.state = .Body

/-- Messages can be written. -/
def CanWrite (e : ECIES) : Prop := e.egressAes.isSome ∧ e.egressMac.isSome

/-- A session that reads frames writes frames. -/
def Framed (c : Connection) : Prop :=
  c.eciesSession.ingressMac.isSome → CanWrite c.eciesSession

/-- What holds in every state but within the handling of a HELLO. -/
structure Weak (c : Connection) : Prop where
  framed : Framed c
  early : ¬ Late c → c.nextTick = [] ∧ c.weHello = none ∧ c.hello = none ∧
    .connect ∉ c.emitted
  pending : c.nextTick ≠ [] → c.nextTick.length = 1 ∧ c.weHello = none ∧ .connect ∉ c.emitted
  outbound : c.options.direction = .outbound → Authentic c ∧ c.state ≠ .Auth
  once : Trusted c → c.emitted.count .connect ≤ 1
  identity : Trusted c → .connect ∈ c.emitted → Authentic c

/-- A HELLO that is kept by an open connection has settled the identity. -/
structure Sound (c : Connection) : Prop extends Weak c where
  settled : Trusted c → c.hello.isSome → c.closed = false → Authentic c

/-! ## Actions that leave the identity alone -/

/-- Nothing changes but the frame ciphers and what goes with sending. -/
structure Quiet (c c' : Connection) : Prop where
  options : c'.options = c.options
  remoteId : c'.remoteId = c.remoteId
  key : c'.eciesSession.remotePublicKey = c.eciesSession.remotePublicKey
  late : Late c → Late c'
  early : ¬ Late c' → c'.state = c.state
  hello : c'.hello = c.hello
  weHello : c'.weHello = c.weHello
  nextTick : c'.nextTick = c.nextTick
  accepted : c'.accepted = c.accepted
  connects : c'.emitted.count .connect = c.emitted.count .connect
  closed : c.closed = true → c'.closed = true
  destroyed : c'.destroyed = c.destroyed
  framed : Framed c → Framed c'
  canWrite : CanWrite c.eciesSession → CanWrite c'.eciesSession

instance : IsPreorder Connection Quiet where
  refl c := ⟨rfl, rfl, rfl, id, fun _ => rfl, rfl, rfl, rfl, rfl, rfl, id, rfl, id, id⟩
  trans a b c hab hbc := by
    refine ⟨hbc.options.trans hab.options, hbc.remoteId.trans hab.remoteId,
      hbc.key.trans hab.key, fun h => hbc.late (hab.late h), fun h => ?_,
      hbc.hello.trans hab.hello, hbc.weHello.trans hab.weHello, hbc.nextTick.trans hab.nextTick,
      hbc.accepted.trans hab.accepted, hbc.connects.trans hab.connects,
      fun h => hbc.closed (hab.closed h), hbc.destroyed.trans hab.destroyed,
      fun h => hbc.framed (hab.framed h), fun h => hbc.canWrite (hab.canWrite h)⟩
    have hsame := hbc.early h
    refine hsame.trans (hab.early fun hlate => h ?_)
    unfold Late at hlate ⊢
    exact hsame ▸ hlate

variable {c c' : Connection}

section

variable (h : Quiet c c')
include h

theorem Quiet.authentic (ha : Authentic c) : Authentic c' := by
  obtain ⟨id, hid, hkey⟩ := ha
  exact ⟨id, h.remoteId.trans hid, h.key ▸ hkey⟩

theorem Quiet.trusted (ht : Trusted c') : Trusted c := by
  unfold Trusted at ht ⊢
  rw [h.accepted, h.options] at ht
  exact ht

theorem Quiet.mem_connect : .connect ∈ c'.emitted ↔ .connect ∈ c.emitted := by
  rw [← count_pos_iff, ← count_pos_iff, h.connects]

theorem Quiet.weak (hc : Weak c) : Weak c' where
  framed := h.framed hc.framed
  early hnot := by
    rw [h.nextTick, h.weHello, h.hello, h.mem_connect]
    exact hc.early (mt h.late hnot)
  pending := by
    rw [h.nextTick, h.weHello, h.mem_connect]
    exact hc.pending
  outbound hout := by
    obtain ⟨ha, hstate⟩ := hc.outbound (h.options ▸ hout)
    refine ⟨h.authentic ha, fun hauth => hstate ((h.early fun hlate => ?_).symm.trans hauth)⟩
    rcases hlate with h | h <;> cases hauth.symm.trans h
  once ht := h.connects ▸ hc.once (h.trusted ht)
  identity ht hmem := h.authentic (hc.identity (h.trusted ht) (h.mem_connect.mp hmem))

theorem Quiet.sound (hc : Sound c) : Sound c' where
  toWeak := h.weak hc.toWeak
  settled ht hhello hopen := by
    refine h.authentic (hc.settled (h.trusted ht) (h.hello ▸ hhello) ?_)
    cases hclosed : c.closed with
    | false => rfl
    | true => exact absurd (h.closed hclosed) (by rw [hopen]; decide)

end

/-- The frame functions of the session change its ciphers and MACs, and none of them goes. -/
structure SessionQuiet (e e' : ECIES) : Prop where
  key : e'.remotePublicKey = e.remotePublicKey
  framed : (e.ingressMac.isSome → CanWrite e) → e'.ingressMac.isSome → CanWrite e'
  canWrite : CanWrite e → CanWrite e'

theorem SessionQuiet.refl (e : ECIES) : SessionQuiet e e := ⟨rfl, id, id⟩

variable {e' : ECIES}

theorem Quiet.ofSession (h : SessionQuiet c.eciesSession e') :
    Quiet c { c with eciesSession := e' } :=
  ⟨rfl, rfl, h.key, id, fun _ => rfl, rfl, rfl, rfl, rfl, rfl, id, rfl, h.framed, h.canWrite⟩

theorem quiet_withSession {α : Type} {p : Program Fault ECIES α}
    (h : ∀ e, SessionQuiet e (p e).2) : (withSession p).Keeps Quiet :=
  keeps_onPart fun c => .ofSession (h c.eciesSession)

variable {env : Env}

theorem sessionQuiet_createBlockHeader (size : Nat) (e : ECIES) :
    SessionQuiet e (createBlockHeader env.crypto size e).2 := by
  unfold createBlockHeader
  cases haes : e.egressAes with
  | none => exact .refl e
  | some aes =>
    cases hmac : e.egressMac with
    | none => exact ⟨rfl, fun h hin => absurd (h hin).2 (by rw [hmac]; decide),
        fun h => absurd h.2 (by rw [hmac]; decide)⟩
    | some mac => exact ⟨rfl, fun _ _ => ⟨rfl, rfl⟩, fun _ => ⟨rfl, rfl⟩⟩

theorem sessionQuiet_createBody (data : Bytes) (e : ECIES) :
    SessionQuiet e (createBody env.crypto data e).2 := by
  unfold createBody
  cases haes : e.egressAes with
  | none => exact .refl e
  | some aes =>
    cases hmac : e.egressMac with
    | none => exact ⟨rfl, fun h hin => absurd (h hin).2 (by rw [hmac]; decide),
        fun h => absurd h.2 (by rw [hmac]; decide)⟩
    | some mac => exact ⟨rfl, fun _ _ => ⟨rfl, rfl⟩, fun _ => ⟨rfl, rfl⟩⟩

variable {e : ECIES}

/-- A session that has read something has a MAC to read with. -/
theorem SessionQuiet.ofIngress (hkey : e'.remotePublicKey = e.remotePublicKey)
    (hmac : e.ingressMac.isSome) (haes : e'.egressAes = e.egressAes)
    (hmac' : e'.egressMac = e.egressMac) : SessionQuiet e e' where
  key := hkey
  framed h _ := by
    unfold CanWrite
    rw [haes, hmac']
    exact h hmac
  canWrite h := by
    unfold CanWrite
    rw [haes, hmac']
    exact h

theorem sessionQuiet_parseHeader (data : Bytes) (e : ECIES) :
    SessionQuiet e (parseHeader env.crypto data e).2 := by
  unfold parseHeader
  cases hmac : e.ingressMac with
  | none => exact .refl e
  | some mac =>
    have hsome : e.ingressMac.isSome = true := hmac ▸ rfl
    simp only
    split
    · exact .ofIngress rfl hsome rfl rfl
    · split
      · exact .ofIngress rfl hsome rfl rfl
      · split <;> exact .ofIngress rfl hsome rfl rfl

theorem sessionQuiet_parseBody (data : Bytes) (e : ECIES) :
    SessionQuiet e (parseBody env.crypto data e).2 := by
  unfold parseBody
  split
  · exact .refl e
  · cases hmac : e.ingressMac with
    | none => exact .refl e
    | some mac =>
      have hsome : e.ingressMac.isSome = true := hmac ▸ rfl
      simp only
      split
      · exact .ofIngress rfl hsome rfl rfl
      · split <;> exact .ofIngress rfl hsome rfl rfl

theorem quiet_write (data : Bytes) : (write data).Keeps Quiet :=
  keeps_modify fun _ => ⟨rfl, rfl, rfl, id, fun _ => rfl, rfl, rfl, rfl, rfl, rfl, id, rfl, id, id⟩

theorem quiet_emit {event : Event} (h : event ≠ .connect) : (emit event).Keeps Quiet :=
  keeps_modify fun c => ⟨rfl, rfl, rfl, id, fun _ => rfl, rfl, rfl, rfl, rfl, by
    rw [count_append, count_singleton, beq_false_of_ne h, if_neg (by decide)]
    rfl, id, rfl, id, id⟩

theorem quiet_writeUnlessDestroyed (bytes : Option Bytes) {next : Action Bool}
    (h : next.Keeps Quiet) : (writeUnlessDestroyed bytes next).Keeps Quiet := by
  unfold writeUnlessDestroyed
  apply keeps_bind keeps_get
  intro c
  cases bytes with
  | none => exact keeps_pure false
  | some bytes =>
    apply keeps_ite (keeps_pure false)
    exact keeps_bind (quiet_write bytes) fun _ => h

theorem quiet_sendMessage (code : Nat) (data : Bytes) : (sendMessage env code data).Keeps Quiet := by
  unfold sendMessage
  apply keeps_bind keeps_get
  intro c
  apply keeps_ite (keeps_pure false)
  apply keeps_bind (quiet_withSession (sessionQuiet_createBlockHeader _))
  intro header
  apply quiet_writeUnlessDestroyed
  apply keeps_bind (quiet_withSession (sessionQuiet_createBody _))
  intro body
  exact quiet_writeUnlessDestroyed body (keeps_pure true)

theorem quiet_disconnect (reason : Nat) : (disconnect env reason).Keeps Quiet := by
  unfold disconnect
  apply keeps_bind (quiet_sendMessage _ _)
  intro sent
  apply keeps_when
  exact keeps_modify fun _ => ⟨rfl, rfl, rfl, id, fun _ => rfl, rfl, rfl, rfl, rfl, rfl,
    fun _ => rfl, rfl, id, id⟩

theorem quiet_sendPong : (sendPong env).Keeps Quiet := by
  unfold sendPong
  apply keeps_bind keeps_get
  intro c
  exact keeps_bind (quiet_sendMessage _ _) fun _ => keeps_pure ()

theorem quiet_sendPing : (sendPing env).Keeps Quiet := by
  unfold sendPing
  apply keeps_bind keeps_get
  intro c
  exact keeps_bind (quiet_sendMessage _ _) fun _ => keeps_pure ()

theorem quiet_handleDisconnect (payload : Rlp.Item) : (handleDisconnect payload).Keeps Quiet := by
  unfold handleDisconnect
  apply keeps_bind (keeps_modify fun _ => ⟨rfl, rfl, rfl, id, fun _ => rfl, rfl, rfl, rfl, rfl,
    rfl, fun _ => rfl, rfl, id, id⟩)
  intro _
  apply keeps_bind (keeps_ofExcept _)
  intro reason
  exact keeps_modify fun _ => ⟨rfl, rfl, rfl, id, fun _ => rfl, rfl, rfl, rfl, rfl, rfl, id,
    rfl, id, id⟩

theorem quiet_handleHeader : (handleHeader env).Keeps Quiet := by
  unfold handleHeader
  apply keeps_bind keeps_get
  intro c
  apply keeps_bind (quiet_withSession (sessionQuiet_parseHeader _))
  intro size
  cases size with
  | none => exact keeps_pure ()
  | some size =>
    exact keeps_modify fun _ => ⟨rfl, rfl, rfl, fun _ => Or.inr rfl,
      fun h => absurd (Or.inr rfl) h, rfl, rfl, rfl, rfl, rfl, id, rfl, id, id⟩

theorem quiet_handToSubprotocol (obj : ProtocolDescriptor) (code : Nat) (payload : Bytes) :
    (handToSubprotocol env obj code payload).Keeps Quiet := by
  unfold handToSubprotocol
  apply keeps_bind (keeps_modify fun _ => ⟨rfl, rfl, rfl, id, fun _ => rfl, rfl, rfl, rfl, rfl,
    rfl, id, rfl, id, id⟩)
  intro _
  exact keeps_ite (keeps_throw Fault.handler) (keeps_pure ())

theorem quiet_onSocketClose : onSocketClose.Keeps Quiet := by
  unfold onSocketClose
  apply keeps_bind (keeps_modify fun _ => ⟨rfl, rfl, rfl, id, fun _ => rfl, rfl, rfl, rfl, rfl,
    rfl, fun _ => rfl, rfl, id, id⟩)
  intro _
  apply keeps_bind keeps_get
  intro c
  exact keeps_when (quiet_emit (fun h => by cases h))

/-! ## HELLO -/

/-- Where a message is handled: frames come in, so they can be sent, on a socket that lives. -/
structure Handling (c : Connection) : Prop where
  late : Late c
  canWrite : CanWrite c.eciesSession
  alive : c.destroyed = false

/-- An identity that is known stays, and nothing that was accepted or emitted is taken back. -/
structure Grown (c c' : Connection) : Prop where
  id : c.remoteId.isSome → c'.remoteId = c.remoteId
  options : c'.options = c.options
  accepted : ∀ h ∈ c.accepted, h ∈ c'.accepted
  connects : .connect ∈ c.emitted → .connect ∈ c'.emitted

theorem Grown.refl (c : Connection) : Grown c c := ⟨fun _ => rfl, rfl, fun _ h => h, fun h => h⟩

theorem Grown.trans {a b : Connection} (h : Grown a b) (h' : Grown b c) : Grown a c :=
  ⟨fun hid => (h'.id (h.id hid ▸ hid)).trans (h.id hid), h'.options.trans h.options,
    fun x hx => h'.accepted x (h.accepted x hx), fun hx => h'.connects (h.connects hx)⟩

theorem Grown.trusted (h : Grown c c') (ht : Trusted c') : Trusted c := by
  unfold Trusted at ht ⊢
  rw [h.options] at ht
  exact fun x hx => ht x (h.accepted x hx)

/-- The same on a socket that lives on. -/
structure SameId (c c' : Connection) : Prop extends Grown c c' where
  destroyed : c'.destroyed = c.destroyed

theorem SameId.refl (c : Connection) : SameId c c := ⟨.refl c, rfl⟩

theorem SameId.trans {a b : Connection} (h : SameId a b) (h' : SameId b c) : SameId a c :=
  ⟨h.toGrown.trans h'.toGrown, h'.destroyed.trans h.destroyed⟩

theorem Quiet.sameId (h : Quiet c c') : SameId c c' :=
  ⟨⟨fun _ => h.remoteId, h.options, fun _ hmem => h.accepted.symm ▸ hmem, h.mem_connect.mpr⟩,
    h.destroyed⟩

theorem Weak.sound_of_closed (h : Weak c) (hclosed : c.closed = true) : Sound c where
  toWeak := h
  settled _ _ hopen := absurd (hclosed.symm.trans hopen) (by decide)

/-- `disconnect` closes a connection that can write. -/
theorem disconnect_closes (reason : Nat) (h : Handling c) :
    (disconnect env reason c).2.closed = true := by
  cases hclosed : c.closed with
  | true => exact ((quiet_disconnect reason).outcome c).closed hclosed
  | false =>
    obtain ⟨haes, hmac⟩ := h.canWrite
    have hwrites : Writes c.eciesSession ⟨c.eciesSession.egressAes.get haes,
        c.eciesSession.egressMac.get hmac⟩ := ⟨(some_get haes).symm, (some_get hmac).symm⟩
    refine outcome_of_wp (fun c' : Connection => c'.closed = true) ?_
    simp only [disconnect, wp_bind]
    apply sendMessage_wp hclosed h.alive hwrites
    intro e' _
    apply wp_when
    · exact fun _ => rfl
    · exact fun hnot => absurd rfl hnot

theorem disconnect_sound (reason : Nat) {c : Connection} (hweak : Weak c) (h : Handling c) :
    Sound (disconnect env reason c).2 :=
  (((quiet_disconnect reason).outcome c).weak hweak).sound_of_closed (disconnect_closes reason h)

/-- A state that is sound, where the identity is still the one that it was. -/
def Settled (c c' : Connection) : Prop := Sound c' ∧ SameId c c'

variable {c₀ : Connection}

theorem disconnect_wp (reason : Nat) (hweak : Weak c) (h : Handling c) (hsame : SameId c₀ c) :
    (disconnect env reason).wp (fun _ c' => Settled c₀ c') (fun _ c' => Settled c₀ c') c := by
  have hsound := @disconnect_sound env reason c hweak h
  have hid := ((@quiet_disconnect env reason).outcome c).sameId
  unfold wp
  rcases hrun : disconnect env reason c with ⟨f | _, c'⟩ <;> rw [hrun] at hsound hid
  · exact ⟨hsound, hsame.trans hid⟩
  · exact ⟨hsound, hsame.trans hid⟩

/-- `Weak` says nothing of the HELLO itself, once frames come in. -/
theorem Weak.of_same (hc : Weak c) (hlate : Late c') (hoptions : c'.options = c.options)
    (hframed : Framed c') (hnext : c'.nextTick = c.nextTick) (hwe : c'.weHello = c.weHello)
    (hemitted : c'.emitted = c.emitted) (haccepted : c'.accepted = c.accepted)
    (hid : Authentic c → Authentic c') : Weak c' := by
  have htrusted : Trusted c' → Trusted c := by
    unfold Trusted
    rw [haccepted, hoptions]
    exact id
  refine ⟨hframed, fun hnot => absurd hlate hnot, ?_, ?_, ?_, ?_⟩
  · rw [hnext, hwe, hemitted]
    exact hc.pending
  · intro hout
    refine ⟨hid (hc.outbound (hoptions ▸ hout)).1, fun hauth => ?_⟩
    rcases hlate with h | h <;> cases hauth.symm.trans h
  · rw [hemitted]
    exact fun ht => hc.once (htrusted ht)
  · rw [hemitted]
    exact fun ht hmem => hid (hc.identity (htrusted ht) hmem)

theorem not_mem_of_contains (h : c.emitted.contains .connect = false) :
    c.emitted.count .connect = 0 := by
  rw [count_eq_zero]
  intro hmem
  rw [contains_iff_mem.mpr hmem] at h
  cases h

/-- The state after a HELLO that was accepted, before 'connect'. -/
def afterAccept (c : Connection) (hello : HelloMessage) : Connection :=
  { c with
    connected := true
    accepted := c.accepted ++ [{
      id := c.remoteId.getD hello.id
      remotePublicKey := c.eciesSession.remotePublicKey
      again := c.emitted.contains .connect }] }

theorem trusted_afterAccept (hello : HelloMessage) (hweak : Weak c) (hid : c.remoteId.isSome)
    {accepted : List AcceptedHello} (haccepted : accepted = (afterAccept c hello).accepted)
    (ht : ∀ h ∈ accepted, h.again = false ∧
      (c.options.direction = .inbound → IdOf h.id h.remotePublicKey)) :
    Trusted c ∧ c.emitted.count .connect = 0 ∧ Authentic c := by
  rw [haccepted] at ht
  obtain ⟨id, hsome⟩ := isSome_iff_exists.mp hid
  have hlast := ht _ (mem_append_right _ mem_cons_self)
  refine ⟨fun h hmem => ht h (mem_append_left _ hmem), not_mem_of_contains hlast.1, ?_⟩
  cases hdirection : c.options.direction with
  | inbound =>
    have hidof := hlast.2 hdirection
    simp only [hsome, getD_some] at hidof
    exact ⟨id, hsome, hidof⟩
  | outbound => exact (hweak.outbound hdirection).1

theorem acceptHello_wp {hello : HelloMessage} (hweak : Weak c) (h : Handling c)
    (hid : c.remoteId.isSome) (hsame : SameId c₀ c) :
    (acceptHello env hello).wp (fun _ c' => Settled c₀ c') (fun _ c' => Settled c₀ c') c := by
  have hweak' : Weak { c with
      protocols := negotiate c.options.capabilities hello.capabilities } :=
    hweak.of_same h.late rfl hweak.framed rfl rfl rfl rfl id
  simp only [acceptHello, wp_bind, wp_get]
  apply wp_ite
  · intro _
    exact disconnect_wp _ hweak h hsame
  · intro _
    simp only [wp_bind, wp_modify]
    apply wp_ite
    · intro _
      exact disconnect_wp _ hweak' ⟨h.late, h.canWrite, h.alive⟩
        (hsame.trans ⟨⟨fun _ => rfl, rfl, fun _ h => h, fun h => h⟩, rfl⟩)
    · intro _
      simp only [wp_bind, wp_modify]
      apply wp_when
      · -- our own HELLO is out, so no callback waits
        intro hwe
        have hnext : c.nextTick = [] := by
          by_contra hne
          have hnone := (hweak.pending hne).2.1
          simp only [hnone] at hwe
          cases hwe
        simp only [onConnect, emit, wp_bind, wp_modify]
        refine ⟨⟨⟨hweak.framed, fun hnot => absurd h.late hnot, fun hne => absurd hnext hne,
          hweak.outbound, fun ht => ?_, fun ht _ => ?_⟩, fun ht _ _ => ?_⟩,
          hsame.trans ⟨⟨fun _ => rfl, rfl, fun _ hmem => mem_append_left _ hmem,
            fun hmem => mem_append_left _ (mem_append_left _ hmem)⟩, rfl⟩⟩
        · have hzero := (trusted_afterAccept hello hweak hid rfl ht).2.1
          simp only [append_assoc, count_append, hzero]
          decide
        · exact (trusted_afterAccept hello hweak hid rfl ht).2.2
        · exact (trusted_afterAccept hello hweak hid rfl ht).2.2
      · intro _
        refine ⟨⟨⟨hweak.framed, fun hnot => absurd h.late hnot, hweak.pending, hweak.outbound,
          fun ht => ?_, fun ht _ => ?_⟩, fun ht _ _ => ?_⟩,
          hsame.trans ⟨⟨fun _ => rfl, rfl, fun _ hmem => mem_append_left _ hmem,
            fun hmem => hmem⟩, rfl⟩⟩
        · exact hweak.once (trusted_afterAccept hello hweak hid rfl ht).1
        · exact (trusted_afterAccept hello hweak hid rfl ht).2.2
        · exact (trusted_afterAccept hello hweak hid rfl ht).2.2

/-- What is left where the handling of a message throws, for the `catch` to close. -/
def Thrown (c c' : Connection) : Prop := Weak c' ∧ Handling c' ∧ SameId c c'

theorem handleHello_wp {payload : Rlp.Item} (hweak : Weak c) (h : Handling c) :
    (handleHello env payload).wp (fun _ c' => Settled c c')
      (fun _ c' => Thrown c c' ∨ Settled c c') c := by
  have hcaught {p : Action Unit} {c' : Connection}
      (hp : p.wp (fun _ c'' => Settled c c'') (fun _ c'' => Settled c c'') c') :
      p.wp (fun _ c'' => Settled c c'') (fun _ c'' => Thrown c c'' ∨ Settled c c'') c' :=
    wp_mono hp (fun _ _ hdone => hdone) (fun _ _ hdone => Or.inr hdone)
  unfold handleHello
  rw [wp_bind]
  cases parseHello env payload with
  | error f => exact Or.inl ⟨hweak, h, .refl c⟩
  | ok hello =>
    have hweak' : Weak { c with hello := some hello } :=
      hweak.of_same h.late rfl hweak.framed rfl rfl rfl rfl id
    have h' : Handling { c with hello := some hello } := ⟨h.late, h.canWrite, h.alive⟩
    simp only [wp_ofExcept_ok, wp_bind, wp_modify, wp_get]
    cases hid : c.remoteId with
    | none =>
      -- an inbound connection takes the identity from the message
      simp only [wp_bind, wp_modify]
      have hnone : ¬ Authentic c := by
        rintro ⟨id, hsome, -⟩
        cases hid.symm.trans hsome
      apply hcaught
      apply acceptHello_wp
      · exact hweak'.of_same h.late rfl hweak.framed rfl rfl rfl rfl fun ha => absurd ha hnone
      · exact ⟨h.late, h.canWrite, h.alive⟩
      · rfl
      · exact ⟨⟨fun hsome => (by cases hid ▸ hsome), rfl, fun _ h => h, fun h => h⟩, rfl⟩
    | some remoteId =>
      have hsome : { c with hello := some hello }.remoteId.isSome := by
        simp only [hid, isSome_some]
      simp only [wp_bind]
      rw [← hid]
      cases equalsBytes remoteId hello.id with
      | error f => exact Or.inl ⟨hweak', h', ⟨⟨fun _ => rfl, rfl, fun _ h => h, fun h => h⟩, rfl⟩⟩
      | ok same =>
        simp only [wp_ofExcept_ok]
        apply wp_ite
        · intro _
          exact hcaught (acceptHello_wp hweak' h' hsome ⟨⟨fun _ => rfl, rfl, fun _ h => h, fun h => h⟩, rfl⟩)
        · intro _
          exact hcaught (disconnect_wp _ hweak' h' ⟨⟨fun _ => rfl, rfl, fun _ h => h, fun h => h⟩, rfl⟩)

/-! ## Messages -/

theorem Quiet.kept (h : Quiet c c') (hc : Sound c) : Settled c c' := ⟨h.sound hc, h.sameId⟩

theorem handleMessage_wp {code : Nat} {msg : Rlp.Item} (hsound : Sound c) (h : Handling c) :
    (handleMessage env code msg).wp (fun _ c' => Settled c c')
      (fun _ c' => Thrown c c' ∨ Settled c c') c := by
  have hquiet {p : Action Unit} (hp : p.Keeps Quiet) :
      p.wp (fun _ c' => Settled c c') (fun _ c' => Thrown c c' ∨ Settled c c')
        c :=
    wp_mono (hp.wp c) (fun _ _ hq => hq.kept hsound) (fun _ _ hq => Or.inr (hq.kept hsound))
  unfold handleMessage
  apply wp_ite
  · exact fun _ => handleHello_wp hsound.toWeak h
  · intro _
    apply wp_ite
    · exact fun _ => hquiet (quiet_handleDisconnect msg)
    · intro _
      apply wp_ite
      · exact fun _ => hquiet quiet_sendPong
      · exact fun _ => hquiet (keeps_pure ())

theorem dispatch_wp (receiver : Receiver) (msgCode : Nat) (origPayload : Bytes) (hsound : Sound c)
    (h : Handling c) : (dispatch env receiver msgCode origPayload).wp (fun _ c' => Settled c c')
      (fun _ c' => Thrown c c' ∨ Settled c c') c := by
  have hthrown : Thrown c c := ⟨hsound.toWeak, h, .refl c⟩
  simp only [dispatch, wp_bind, wp_get]
  cases (if c.hello.any (fun hello => decide (hello.protocolVersion ≥ 5)) then
      uncompress env origPayload else .ok origPayload) with
  | error f => exact Or.inl hthrown
  | ok payload =>
    simp only [wp_ofExcept_ok]
    cases receiver with
    | base =>
      simp only [wp_bind]
      cases decodeBase env msgCode _ origPayload payload with
      | error f => exact Or.inl hthrown
      | ok msg => exact handleMessage_wp hsound h
    | subprotocol obj =>
      exact wp_mono ((quiet_handToSubprotocol obj msgCode payload).wp c)
        (fun _ _ hq => hq.kept hsound) (fun _ _ hq => Or.inr (hq.kept hsound))

/-- The `catch` closes what a HELLO has left half done. -/
theorem orDisconnect_sound {p : Action Unit}
    (hp : p.wp (fun _ c' => Settled c c') (fun _ c' => Thrown c c' ∨ Settled c c') c) :
    (orDisconnect env p).wp (fun _ c' => Settled c c') (fun _ c' => Settled c c') c := by
  simp only [orDisconnect, wp_bind, wp_attempt]
  apply wp_mono hp
  · exact fun _ _ hdone => hdone
  · intro f c' hcases
    have hquiet : (disconnect env DISCONNECT_REASON.SUBPROTOCOL_ERROR).Keeps Quiet :=
      quiet_disconnect _
    have hemit : (emit (.error f)).Keeps Quiet := quiet_emit fun h => by cases h
    have hafter (c'' : Connection) (hs : Sound c'') (hsame : SameId c c'') :
        (emit (.error f)).wp (fun _ c' => Settled c c')
          (fun _ c' => Settled c c') c'' :=
      wp_mono (hemit.wp c'') (fun _ _ hq => ⟨hq.sound hs, hsame.trans hq.sameId⟩)
        (fun _ _ hq => ⟨hq.sound hs, hsame.trans hq.sameId⟩)
    rcases hcases with ⟨hweak, h, hsame⟩ | ⟨hs, hsame⟩
    · apply wp_mono (disconnect_wp DISCONNECT_REASON.SUBPROTOCOL_ERROR hweak h hsame)
      · exact fun _ c'' hdone => hafter c'' hdone.1 hdone.2
      · exact fun _ _ hdone => hdone
    · apply wp_mono (hquiet.wp c')
      · exact fun _ c'' hq => hafter c'' (hq.sound hs) (hsame.trans hq.sameId)
      · exact fun _ c'' hq => ⟨hq.sound hs, hsame.trans hq.sameId⟩

theorem quiet_toHeader : (modify fun c : Connection =>
    { c with state := .Header, nextPacketSize := 32 } : Action Unit).Keeps Quiet :=
  keeps_modify fun _ => ⟨rfl, rfl, rfl, fun _ => Or.inl rfl, fun h => absurd (Or.inl rfl) h, rfl,
    rfl, rfl, rfl, rfl, id, rfl, id, id⟩

theorem quiet_consume (count : Nat) : (modify fun c : Connection =>
    { c with socketData := c.socketData.drop count } : Action Unit).Keeps Quiet :=
  keeps_modify fun _ => ⟨rfl, rfl, rfl, id, fun _ => rfl, rfl, rfl, rfl, rfl, rfl, id, rfl, id, id⟩

variable {data : Bytes}

/-- A body is read only with a MAC to check it. -/
theorem ingressMac_of_parseBody {body : Bytes}
    (h : parseBody env.crypto data e = (.ok (some body), e')) : e.ingressMac.isSome := by
  unfold parseBody at h
  cases hsize : e.bodySize with
  | none => rw [hsize] at h; cases h
  | some size =>
    cases hmac : e.ingressMac with
    | none => rw [hsize, hmac] at h; cases h
    | some mac => rfl

/-- Where a program only does quiet things, what was sound stays so. -/
theorem sound_of_quiet {α : Type} {p : Action α} (hp : p.Keeps Quiet) (hsound : Sound c')
    (hid : SameId c c') : p.wp (fun _ c'' => Settled c c'') (fun _ c'' => Settled c c'') c' :=
  wp_mono (hp.wp c') (fun _ _ hq => ⟨hq.sound hsound, hid.trans hq.sameId⟩)
    (fun _ _ hq => ⟨hq.sound hsound, hid.trans hq.sameId⟩)

theorem handleBody_sound (hsound : Sound c) (halive : c.destroyed = false) :
    (handleBody env).wp (fun _ c' => Settled c c') (fun _ c' => Settled c c') c := by
  have hsession : SessionQuiet c.eciesSession
      (parseBody env.crypto (c.socketData.take c.nextPacketSize) c.eciesSession).2 :=
    sessionQuiet_parseBody _ _
  simp only [handleBody, wp_bind, wp_get, withSession, wp_onPart]
  rcases hrun : parseBody env.crypto (c.socketData.take c.nextPacketSize) c.eciesSession
    with ⟨f | body, e'⟩
  · rw [hrun] at hsession
    unfold wp
    rw [hrun]
    exact (Quiet.ofSession hsession).kept hsound
  · rw [hrun] at hsession
    apply wp_of_run hrun
    have hparsed : Quiet c { c with eciesSession := e' } := .ofSession hsession
    cases body with
    | none => exact hparsed.kept hsound
    | some body =>
      have hwrite : CanWrite e' := hparsed.canWrite (hsound.framed (ingressMac_of_parseBody hrun))
      have hheader := trans_of Quiet hparsed
        (quiet_toHeader.outcome { c with eciesSession := e' })
      have hnow : Handling { c with eciesSession := e', state := .Header, nextPacketSize := 32 } :=
        ⟨Or.inl rfl, hwrite, halive⟩
      obtain ⟨hs, hsame⟩ := hheader.kept hsound
      simp only [wp_bind, wp_modify]
      apply wp_ite
      · exact fun _ => sound_of_quiet (quiet_disconnect _) hs hsame
      · intro _
        split
        · exact sound_of_quiet (quiet_disconnect _) hs hsame
        · rename_i receiver msgCode _
          simp only [wp_bind]
          apply wp_mono (orDisconnect_sound (dispatch_wp receiver msgCode (body.drop 1) hs hnow))
          · intro _ c' hdone
            exact sound_of_quiet (quiet_consume _) hdone.1 (hsame.trans hdone.2)
          · exact fun _ c' hdone => ⟨hdone.1, hsame.trans hdone.2⟩

/-! ## The handshake -/

/-- Reading the initiator's packet leaves the frame ciphers alone. -/
structure SameFrames (e e' : ECIES) : Prop where
  ingressMac : e'.ingressMac = e.ingressMac
  egressAes : e'.egressAes = e.egressAes
  egressMac : e'.egressMac = e.egressMac

instance : IsPreorder ECIES SameFrames where
  refl _ := ⟨rfl, rfl, rfl⟩
  trans _ _ _ h h' := ⟨h'.1.trans h.1, h'.2.trans h.2, h'.3.trans h.3⟩

instance : IsPreorder ECIES SessionQuiet where
  refl := .refl
  trans _ _ _ h h' := ⟨h'.key.trans h.key, fun hin => h'.framed (h.framed hin),
    fun hw => h'.canWrite (h.canWrite hw)⟩

theorem sameFrames_parseAuthPlain (c : Crypto) (data : Bytes) (sharedMacData : Option Bytes) :
    (parseAuthPlain c data sharedMacData).Keeps SameFrames := by
  unfold parseAuthPlain
  apply keeps_bind (keeps_modify fun _ => ⟨rfl, rfl, rfl⟩)
  intro _
  apply keeps_bind keeps_get
  intro e
  apply keeps_bind (keeps_ofExcept _)
  intro decrypted
  apply keeps_bind (keeps_ofExcept _)
  intro body
  apply keeps_bind (keeps_modify fun _ => ⟨rfl, rfl, rfl⟩)
  intro _
  split
  · exact keeps_throw _
  · exact keeps_throw _
  · split
    · exact keeps_throw _
    · apply keeps_bind (keeps_modify fun _ => ⟨rfl, rfl, rfl⟩)
      intro _
      split
      · exact keeps_throw _
      · apply keeps_bind (keeps_modify fun _ => ⟨rfl, rfl, rfl⟩)
        intro _
        split
        · exact keeps_pure ()
        · exact keeps_ofExcept _

theorem sessionQuiet_setupFrame (c : Crypto) (remoteData : Bytes) (incoming : Bool) (e : ECIES) :
    SessionQuiet e (e.setupFrame c remoteData incoming) := by
  unfold setupFrame
  split
  · exact ⟨rfl, fun _ _ => ⟨rfl, rfl⟩, fun _ => ⟨rfl, rfl⟩⟩
  · exact .refl e

theorem sessionQuiet_parseAckPlain (c : Crypto) (data : Bytes) (sharedMacData : Option Bytes) :
    (parseAckPlain c data sharedMacData).Keeps SessionQuiet := by
  unfold parseAckPlain
  apply keeps_bind keeps_get
  intro e
  apply keeps_bind (keeps_ofExcept _)
  intro decrypted
  apply keeps_bind (keeps_ofExcept _)
  intro body
  apply keeps_bind (keeps_modify fun _ => ⟨rfl, id, id⟩)
  intro _
  split
  · exact keeps_throw _
  · apply keeps_bind (keeps_modify fun _ => ⟨rfl, id, id⟩)
    intro _
    exact keeps_modify fun e => sessionQuiet_setupFrame _ _ _ e

/-- What the handshake functions do: the packet's keys go into the session, and the state
moves on with one callback, or not at all. -/
structure Shaken (c c' : Connection) : Prop where
  options : c'.options = c.options
  remoteId : c'.remoteId = c.remoteId
  hello : c'.hello = c.hello
  weHello : c'.weHello = c.weHello
  accepted : c'.accepted = c.accepted
  emitted : c'.emitted = c.emitted
  destroyed : c'.destroyed = c.destroyed
  framed : Framed c → Framed c'
  key : c.state = .Auth ∨ c'.eciesSession.remotePublicKey = c.eciesSession.remotePublicKey
  moves : c'.state = c.state ∧ c'.nextTick = c.nextTick ∨
    c'.state = .Header ∧ c'.nextTick.length = c.nextTick.length + 1

theorem Shaken.kept (h : Shaken c c') (hc : Sound c) (hearly : ¬ Late c) : Settled c c' := by
  obtain ⟨hnext, hwe, hhello, hconnect⟩ := hc.early hearly
  have hnone : .connect ∉ c'.emitted := h.emitted ▸ hconnect
  have hauthentic (hkey : c'.eciesSession.remotePublicKey = c.eciesSession.remotePublicKey)
      (ha : Authentic c) : Authentic c' := by
    obtain ⟨id, hid, hidof⟩ := ha
    exact ⟨id, h.remoteId.trans hid, hkey ▸ hidof⟩
  refine ⟨⟨⟨h.framed hc.framed, fun hnot => ?_, fun hne => ?_, fun hout => ?_, fun _ => ?_,
    fun _ hmem => absurd hmem hnone⟩, fun _ hsome _ => ?_⟩,
    ⟨⟨fun _ => h.remoteId, h.options, fun _ hmem => h.accepted.symm ▸ hmem,
      fun hmem => h.emitted.symm ▸ hmem⟩, h.destroyed⟩⟩
  · rcases h.moves with ⟨-, hsame⟩ | ⟨hstate, -⟩
    · exact ⟨hsame.trans hnext, h.weHello.trans hwe, h.hello.trans hhello, hnone⟩
    · exact absurd (Or.inl hstate) hnot
  · rcases h.moves with ⟨-, hsame⟩ | ⟨-, hlength⟩
    · exact absurd (hsame.trans hnext) hne
    · rw [hnext] at hlength
      exact ⟨hlength, h.weHello.trans hwe, hnone⟩
  · obtain ⟨ha, hstate⟩ := hc.outbound (h.options ▸ hout)
    refine ⟨hauthentic (h.key.resolve_left hstate) ha, fun hauth => ?_⟩
    rcases h.moves with ⟨hsame, -⟩ | ⟨hheader, -⟩
    · exact hstate (hsame.symm.trans hauth)
    · cases hauth.symm.trans hheader
  · rw [count_eq_zero.mpr hnone]
    exact Nat.zero_le 1
  · rw [h.hello, hhello] at hsome
    cases hsome

/-- A packet of the handshake that is not yet known to be in EIP-8 form: its size is read. -/
theorem shaken_size (hkey : e.remotePublicKey = c.eciesSession.remotePublicKey)
    (hframes : SameFrames c.eciesSession e) (size : Nat) :
    Shaken c { c with eciesSession := e, nextPacketSize := size } :=
  ⟨rfl, rfl, rfl, rfl, rfl, rfl, rfl, fun h hin => by
    obtain ⟨hmac, haes, hout⟩ := hframes
    have hwrite := h (hmac ▸ hin)
    exact ⟨haes.symm ▸ hwrite.1, hout.symm ▸ hwrite.2⟩, Or.inr hkey, Or.inl ⟨rfl, rfl⟩⟩

section

variable (hframed : Framed c → e.ingressMac.isSome → CanWrite e)
include hframed

theorem shaken_session
    (hkey : c.state = .Auth ∨ e.remotePublicKey = c.eciesSession.remotePublicKey) :
    Shaken c { c with eciesSession := e } :=
  ⟨rfl, rfl, rfl, rfl, rfl, rfl, rfl, hframed, hkey, Or.inl ⟨rfl, rfl⟩⟩

theorem shaken_done (hkey : c.state = .Auth ∨ e.remotePublicKey = c.eciesSession.remotePublicKey)
    (callback : Callback) (data : Bytes) : Shaken c { c with
      eciesSession := e, state := .Header, nextPacketSize := 32
      nextTick := c.nextTick ++ [callback], socketData := data } :=
  ⟨rfl, rfl, rfl, rfl, rfl, rfl, rfl, hframed, hkey, Or.inr ⟨rfl, length_append⟩⟩

end

/-- Both halves of the handshake after the size is known: a packet is parsed, or not. -/
theorem parsePacket_wp {p : Program Fault ECIES Unit} {callback : Callback} {count : Nat}
    (hframed : Framed c → (p c.eciesSession).2.ingressMac.isSome → CanWrite (p c.eciesSession).2)
    (hkey : c.state = .Auth ∨
      (p c.eciesSession).2.remotePublicKey = c.eciesSession.remotePublicKey) :
    (withSession p >>= fun _ => handshakeDone callback count).wp (fun _ c' => Shaken c c')
      (fun _ c' => Shaken c c') c := by
  simp only [wp_bind, withSession, wp_onPart]
  unfold wp
  rcases hrun : p c.eciesSession with ⟨f | _, e'⟩ <;> rw [hrun] at hframed hkey
  · exact shaken_session hframed hkey
  · exact shaken_done hframed hkey callback _

theorem framed_of_sameFrames (h : SameFrames c.eciesSession e) (hc : Framed c)
    (hin : e.ingressMac.isSome) : CanWrite e := by
  obtain ⟨hmac, haes, hout⟩ := h
  have hwrite := hc (hmac ▸ hin)
  exact ⟨haes.symm ▸ hwrite.1, hout.symm ▸ hwrite.2⟩

theorem handleAuth_wp (hstate : c.state = .Auth) :
    (handleAuth env).wp (fun _ c' => Shaken c c') (fun _ c' => Shaken c c') c := by
  simp only [handleAuth, wp_bind, wp_get, sameArray, Bool.false_eq_true, if_false]
  apply wp_ite
  · intro _
    have hsize (size : Nat) : Shaken c { c with
        eciesSession := { c.eciesSession with gotEIP8Auth := true }, nextPacketSize := size } :=
      shaken_size (e := { c.eciesSession with gotEIP8Auth := true }) rfl ⟨rfl, rfl, rfl⟩ size
    simp only [wp_bind, wp_modify]
    cases bytesToInt (c.socketData.take 2) with
    | error f =>
      simp only [wp_ofExcept_error]
      exact hsize c.nextPacketSize
    | ok size =>
      simp only [wp_ofExcept_ok]
      exact hsize (size + 2)
  · intro _
    apply parsePacket_wp
    · apply framed_of_sameFrames
      have hkeeps : (parseAuthEIP8 env.crypto
          (c.socketData.take c.nextPacketSize)).Keeps SameFrames :=
        keeps_bind (keeps_ofExcept _) fun _ => sameFrames_parseAuthPlain _ _ _
      exact hkeeps.outcome c.eciesSession
    · exact Or.inl hstate

theorem handleAck_wp :
    (handleAck env).wp (fun _ c' => Shaken c c') (fun _ c' => Shaken c c') c := by
  simp only [handleAck, wp_bind, wp_get, sameArray, Bool.false_eq_true, if_false]
  apply wp_ite
  · intro _
    have hsize (size : Nat) : Shaken c { c with
        eciesSession := { c.eciesSession with gotEIP8Ack := true }, nextPacketSize := size } :=
      shaken_size (e := { c.eciesSession with gotEIP8Ack := true }) rfl ⟨rfl, rfl, rfl⟩ size
    simp only [wp_bind, wp_modify]
    cases bytesToInt (c.socketData.take 2) with
    | error f =>
      simp only [wp_ofExcept_error]
      exact hsize c.nextPacketSize
    | ok size =>
      simp only [wp_ofExcept_ok]
      exact hsize (size + 2)
  · intro _
    have hkeeps : (parseAckEIP8 env.crypto
        (c.socketData.take c.nextPacketSize)).Keeps SessionQuiet :=
      keeps_bind (keeps_ofExcept _) fun _ => sessionQuiet_parseAckPlain _ _ _
    apply parsePacket_wp
    · exact (hkeeps.outcome c.eciesSession).framed
    · exact Or.inr (hkeeps.outcome c.eciesSession).key

/-! ## The loop -/

theorem step_sound (hsound : Sound c) (halive : c.destroyed = false) :
    (reader env).step.wp (fun _ c' => Settled c c') (fun _ c' => Settled c c') c := by
  simp only [reader, wp_bind, wp_get]
  cases hstate : c.state with
  | Auth =>
    have hearly : ¬ Late c := fun hlate => by
      rcases hlate with h | h <;> cases hstate.symm.trans h
    exact wp_mono (handleAuth_wp hstate) (fun _ _ h => h.kept hsound hearly)
      (fun _ _ h => h.kept hsound hearly)
  | Ack =>
    have hearly : ¬ Late c := fun hlate => by
      rcases hlate with h | h <;> cases hstate.symm.trans h
    exact wp_mono handleAck_wp (fun _ _ h => h.kept hsound hearly)
      (fun _ _ h => h.kept hsound hearly)
  | Header => exact sound_of_quiet quiet_handleHeader hsound (.refl c)
  | Body => exact handleBody_sound hsound halive

theorem drain_sound (fuel : Nat) (hsound : Sound c') (hid : SameId c c')
    (halive : c'.destroyed = false) : ((reader env).drain fuel).wp (fun _ c' => Settled c c')
      (fun _ c' => Settled c c') c' := by
  induction fuel generalizing c' with
  | zero => exact ⟨hsound, hid⟩
  | succ fuel ih =>
    simp only [StreamReader.drain, wp_bind, wp_get]
    apply wp_when
    · intro _
      simp only [wp_bind]
      apply wp_mono (step_sound hsound halive)
      · intro _ c'' hdone
        exact ih hdone.1 (hid.trans hdone.2) (hdone.2.destroyed.trans halive)
      · exact fun _ c'' hdone => ⟨hdone.1, hid.trans hdone.2⟩
    · exact fun _ => ⟨hsound, hid⟩

theorem quiet_receive (data : Bytes) : (modify fun c : Connection =>
    { c with socketData := c.socketData ++ data } : Action Unit).Keeps Quiet :=
  keeps_modify fun _ => ⟨rfl, rfl, rfl, id, fun _ => rfl, rfl, rfl, rfl, rfl, rfl, id, rfl, id, id⟩

theorem onSocketData_sound (hsound : Sound c) (halive : c.destroyed = false) :
    (onSocketData env data).wp (fun _ c' => Settled c c') (fun _ c' => Settled c c') c := by
  simp only [onSocketData, wp_bind, wp_get]
  apply wp_when
  · intro _
    simp only [wp_bind, wp_modify]
    have hquiet := (quiet_receive data).outcome c
    obtain ⟨hs, hsame⟩ := hquiet.kept hsound
    apply wp_mono (orDisconnect_sound (wp_mono (drain_sound _ hs (.refl _)
      (hsame.destroyed.trans halive)) (fun _ _ h => h) (fun _ _ h => Or.inr h)))
    · exact fun _ c' hdone => ⟨hdone.1, hsame.trans hdone.2⟩
    · exact fun _ c' hdone => ⟨hdone.1, hsame.trans hdone.2⟩
  · exact fun _ => ⟨hsound, .refl c⟩

/-! ## Callbacks -/

/-- A callback runs once, before our own HELLO is out and before any 'connect'. -/
structure Called (c : Connection) : Prop extends Sound c where
  late : Late c
  idle : c.nextTick = []
  silent : .connect ∉ c.emitted

theorem Quiet.called (h : Quiet c c') (hc : Called c) : Called c' where
  toSound := h.sound hc.toSound
  late := h.late hc.late
  idle := h.nextTick.trans hc.idle
  silent := mt h.mem_connect.mp hc.silent

/-- Our HELLO is out; the peer's, if it came first, has settled the identity. -/
theorem called_connect (hc : Called c) (hsettled : Trusted c → c.hello.isSome → Authentic c)
    (weHello : Option Rlp.Item) (hsame : SameId c₀ c) :
    (when (c.hello.isSome) onConnect).wp (fun _ c' => Settled c₀ c')
      (fun _ c' => Settled c₀ c') { c with weHello := weHello } := by
  have hzero : c.emitted.count .connect = 0 := count_eq_zero.mpr hc.silent
  apply wp_when
  · intro hhello
    simp only [onConnect, emit, wp_bind, wp_modify]
    refine ⟨⟨⟨hc.framed, fun hnot => absurd hc.late hnot, fun hne => absurd hc.idle hne,
      hc.outbound, fun _ => ?_, fun ht _ => hsettled ht hhello⟩,
      fun ht hsome _ => hsettled ht hsome⟩,
      hsame.trans ⟨⟨fun _ => rfl, rfl, fun _ hmem => hmem,
        fun hmem => mem_append_left _ (mem_append_left _ hmem)⟩, rfl⟩⟩
    simp only [append_assoc, count_append, hzero]
    decide
  · intro _
    exact ⟨⟨⟨hc.framed, fun hnot => absurd hc.late hnot, fun hne => absurd hc.idle hne,
      hc.outbound, hc.once, hc.identity⟩, hc.settled⟩,
      hsame.trans ⟨⟨fun _ => rfl, rfl, fun _ h => h, fun h => h⟩, rfl⟩⟩

theorem sendHello_wp (hc : Called c) (hsame : SameId c₀ c) :
    (sendHello env).wp (fun _ c' => Settled c₀ c') (fun _ c' => Settled c₀ c') c := by
  simp only [sendHello, wp_bind, wp_get]
  apply wp_when
  · intro hopen
    simp only [wp_bind]
    apply wp_mono ((quiet_sendMessage RLPX_PREFIXES.HELLO
      (Rlp.encode (helloPayload c.options))).wp c)
    · intro sent c' hq
      have hsame' : SameId c₀ c' := hsame.trans hq.sameId
      -- the connection was open before, so a HELLO that it has had settled the identity
      have hsettled : Trusted c' → c'.hello.isSome → Authentic c' := fun ht hsome =>
        hq.authentic (hc.settled (hq.trusted ht) (hq.hello ▸ hsome) hopen)
      have hconnect (weHello : Option Rlp.Item) :=
        called_connect (hq.called hc) hsettled weHello hsame'
      rw [← hq.hello]
      apply wp_when
      · intro _
        simp only [wp_modify]
        exact hconnect _
      · exact fun _ => hconnect c'.weHello
    · exact fun _ c' hq => ⟨hq.sound hc.toSound, hsame.trans hq.sameId⟩
  · exact fun _ => ⟨hc.toSound, hsame⟩

theorem sessionQuiet_finishAck (c : Crypto) (e : ECIES) :
    SessionQuiet e (finishAck c e).2 := by
  unfold finishAck
  split
  · exact .refl e
  · exact sessionQuiet_setupFrame _ _ _ _

theorem sessionQuiet_finishAck_initMsg (c : Crypto) (e : ECIES) (initMsg : Option Bytes) :
    SessionQuiet e (finishAck c { e with initMsg := initMsg }).2 := by
  obtain ⟨hkey, hframed, hwrite⟩ := sessionQuiet_finishAck c { e with initMsg := initMsg }
  exact ⟨hkey, hframed, hwrite⟩

theorem sessionQuiet_createAckEIP8 (c : Crypto) (draw : Draw) (pad : Bytes) (e : ECIES) :
    SessionQuiet e (createAckEIP8 c draw pad e).2 := by
  unfold createAckEIP8
  simp only
  split
  · exact .refl e
  · exact .refl e
  · exact sessionQuiet_finishAck_initMsg c e _

theorem sessionQuiet_createAckOld (c : Crypto) (draw : Draw) (e : ECIES) :
    SessionQuiet e (createAckOld c draw e).2 := by
  unfold createAckOld
  simp only
  split
  · exact .refl e
  · exact sessionQuiet_finishAck_initMsg c e _

theorem sendAck_wp (draw : Draw) (pad : Bytes) (hc : Called c) (hsame : SameId c₀ c) :
    (sendAck env draw pad).wp (fun _ c' => Settled c₀ c') (fun _ c' => Settled c₀ c') c := by
  have hsession : (withSession (if c.eciesSession.gotEIP8Auth then
      createAckEIP8 env.crypto draw pad else createAckOld env.crypto draw)).Keeps
        Quiet := by
    apply quiet_withSession
    intro e
    split
    · exact sessionQuiet_createAckEIP8 _ _ _ e
    · exact sessionQuiet_createAckOld _ _ e
  simp only [sendAck, wp_bind, wp_get]
  apply wp_when
  · intro _
    simp only [wp_bind]
    apply wp_mono (hsession.wp c)
    · intro packet c' hq
      cases packet with
      | none => exact ⟨hq.sound hc.toSound, hsame.trans hq.sameId⟩
      | some bytes =>
        simp only [afterPacket, wp_bind, write, wp_modify]
        have hwritten := (quiet_write bytes).outcome c'
        have hheader := quiet_toHeader.outcome { c' with written := c'.written ++ bytes }
        have hall := trans_of Quiet hq (trans_of Quiet hwritten hheader)
        exact sendHello_wp (hall.called hc) (hsame.trans hall.sameId)
    · exact fun _ c' hq => ⟨hq.sound hc.toSound, hsame.trans hq.sameId⟩
  · exact fun _ => ⟨hc.toSound, hsame⟩

/-! ## Runs -/

theorem tick_settled (draw : Draw) (pad : Bytes) (hsound : Sound c) :
    Settled c (respond env c (.tick draw pad)) := by
  cases hnext : c.nextTick with
  | nil =>
    simp only [respond, hnext]
    exact ⟨hsound, .refl c⟩
  | cons callback rest =>
    have hne : c.nextTick ≠ [] := by rw [hnext]; exact cons_ne_nil _ _
    obtain ⟨hone, -, hsilent⟩ := hsound.pending hne
    have hrest : rest = [] := by
      rw [hnext] at hone
      exact length_eq_zero_iff.mp (Nat.succ.inj hone)
    have hlate : Late c := by
      by_contra hnot
      exact hne (hsound.early hnot).1
    have hcalled : Called { c with nextTick := rest } :=
      ⟨⟨⟨hsound.framed, fun hnot => absurd hlate hnot, fun hsome => absurd hrest hsome,
        hsound.outbound, hsound.once, hsound.identity⟩, hsound.settled⟩, hlate, hrest, hsilent⟩
    simp only [respond, hnext]
    refine outcome_of_wp (fun c' => Settled c c') ?_
    cases callback with
    | sendAck => exact sendAck_wp draw pad hcalled ⟨⟨fun _ => rfl, rfl, fun _ h => h, fun h => h⟩, rfl⟩
    | sendHello => exact sendHello_wp hcalled ⟨⟨fun _ => rfl, rfl, fun _ h => h, fun h => h⟩, rfl⟩

/-- The socket plays no part in the identity, and a closed connection settles nothing. -/
theorem Weak.socket (h : Weak c) (closed destroyed : Bool) :
    Weak { c with closed := closed, destroyed := destroyed } :=
  ⟨h.framed, h.early, h.pending, h.outbound, h.once, h.identity⟩

theorem close_sound (hsound : Sound c) :
    Sound (Connection.close c).2 ∧ Grown c (Connection.close c).2 := by
  refine outcome_of_wp (fun c' => Sound c' ∧ Grown c c') ?_
  simp only [Connection.close, wp_bind, wp_get]
  apply wp_when
  · intro _
    simp only [wp_bind, wp_modify]
    have hclosed := (hsound.toWeak.socket true true).sound_of_closed rfl
    have hgrown : Grown c { c with closed := true, destroyed := true } :=
      ⟨fun _ => rfl, rfl, fun _ h => h, fun h => h⟩
    have hemit : (emit (.close none (some true))).Keeps Quiet := quiet_emit fun h => by cases h
    exact wp_mono (hemit.wp _) (fun _ _ hq => ⟨hq.sound hclosed, hgrown.trans hq.sameId.toGrown⟩)
      (fun _ _ hq => ⟨hq.sound hclosed, hgrown.trans hq.sameId.toGrown⟩)
  · exact fun _ => ⟨hsound, .refl c⟩

/-- One thing that happens keeps the invariant, and an identity that is known. -/
theorem respond_sound (hsound : Sound c) (input : Input) :
    Sound (respond env c input) ∧ Grown c (respond env c input) := by
  have hquiet {α : Type} {p : Action α} (hp : p.Keeps Quiet) : Sound (p c).2 ∧ Grown c (p c).2 :=
    ⟨(hp.outcome c).sound hsound, (hp.outcome c).sameId.toGrown⟩
  cases input with
  | data chunk =>
    simp only [respond]
    split
    · exact ⟨hsound, .refl c⟩
    · rename_i halive
      have hdone : Settled c (onSocketData env chunk c).2 := outcome_of_wp (fun c' => Settled c c')
        (onSocketData_sound hsound (Bool.eq_false_iff.mpr halive))
      exact ⟨hdone.1, hdone.2.toGrown⟩
  | tick draw pad =>
    have hdone : Settled c (respond env c (.tick draw pad)) := tick_settled draw pad hsound
    exact ⟨hdone.1, hdone.2.toGrown⟩
  | ping => exact hquiet quiet_sendPing
  | pingTimeout => exact hquiet (quiet_disconnect _)
  | send code data => exact hquiet (quiet_sendMessage code data)
  | disconnect reason => exact hquiet (quiet_disconnect reason)
  | close => exact close_sound hsound
  | destroy =>
    exact ⟨⟨hsound.toWeak.socket c.closed true, hsound.settled⟩,
      ⟨fun _ => rfl, rfl, fun _ h => h, fun h => h⟩⟩
  | socketClose => exact hquiet quiet_onSocketClose

theorem run_sound (hsound : Sound c) (inputs : List Input) :
    Sound (run env c inputs) ∧ Grown c (run env c inputs) := by
  induction inputs generalizing c with
  | nil => exact ⟨hsound, .refl c⟩
  | cons input inputs ih =>
    obtain ⟨hs, hgrown⟩ : Sound (respond env c input) ∧ Grown c (respond env c input) :=
      respond_sound hsound input
    obtain ⟨hs', hgrown'⟩ := ih hs
    exact ⟨hs', hgrown.trans hgrown'⟩

theorem sound_created (options : Options) (privateKey nonce ephemeral : Bytes)
    (hdirection : options.direction = .inbound) :
    Sound (created env options privateKey none nonce ephemeral) where
  framed h := by cases h
  early _ := ⟨rfl, rfl, rfl, not_mem_nil⟩
  pending h := absurd rfl h
  outbound h := by cases hdirection.symm.trans h
  once _ := Nat.zero_le 1
  identity _ h := absurd h not_mem_nil
  settled _ h := by cases h

theorem isSome_of_encryptMessage {c : Crypto} {draw : Draw} {shared : Option Bytes}
    {packet : Option Bytes} (hkey : e.remotePublicKey.isSome)
    (h : e.encryptMessage c draw data shared = .ok packet) : packet.isSome := by
  unfold encryptMessage at h
  split at h
  · rename_i hnone
    exact absurd hkey (by rw [hnone]; decide)
  · split at h
    · cases h
    · cases h
      rfl

/-- An authentication packet leaves the peer's key and the frame MAC alone, and is never absent. -/
structure AuthCreated (e : ECIES) (packet : Option Bytes) (e' : ECIES) : Prop where
  packet : packet.isSome
  key : e'.remotePublicKey = e.remotePublicKey
  mac : e'.ingressMac = e.ingressMac

theorem createAuthEIP8_wp {c : Crypto} (draw : Draw) (pad : Bytes) (hkey : e.remotePublicKey.isSome) :
     (createAuthEIP8 c draw pad).wp (AuthCreated e) (fun _ _ => True) e := by
  obtain ⟨pk, hpk⟩ := isSome_iff_exists.mp hkey
  unfold wp createAuthEIP8
  simp only [hpk]
  cases c.ecdhX pk e.privateKey with
  | none => trivial
  | some x =>
    simp only
    generalize hpacket : e.encryptMessage c draw _ _ = packet
    rcases packet with _ | _ | bytes
    · trivial
    · exact ⟨isSome_of_encryptMessage hkey hpacket, rfl, rfl⟩
    · exact ⟨rfl, hpk.symm, rfl⟩

theorem createAuthNonEIP8_wp {c : Crypto} (draw : Draw) (hkey : e.remotePublicKey.isSome) :
    (createAuthNonEIP8 c draw).wp (AuthCreated e) (fun _ _ => True) e := by
  obtain ⟨pk, hpk⟩ := isSome_iff_exists.mp hkey
  unfold wp createAuthNonEIP8
  simp only [hpk]
  cases c.ecdhX pk e.privateKey with
  | none => trivial
  | some x =>
    simp only
    generalize hpacket : e.encryptMessage c draw _ _ = packet
    cases packet with
    | error _ => trivial
    | ok packet => exact ⟨isSome_of_encryptMessage hkey hpacket, hpk.symm, rfl⟩

/-- A dialler that has sent its packet knows whom it has dialled. -/
theorem sound_new {options : Options} {privateKey remoteId nonce ephemeral : Bytes} {draw : Draw}
    {pad : Bytes} (hdirection : options.direction = .outbound)
    (hnew : new env options privateKey (some remoteId) nonce ephemeral draw pad = (.ok (), c)) :
    Sound c := by
  have hwp : (sendAuth env draw pad).wp (fun _ c' => Sound c') (fun _ _ => True)
      (created env options privateKey (some remoteId) nonce ephemeral) := by
    simp only [sendAuth, wp_bind, wp_get]
    apply wp_when
    · intro _
      simp only [wp_bind, withSession, wp_onPart]
      have hkey : (created env options privateKey (some remoteId) nonce
          ephemeral).eciesSession.remotePublicKey.isSome := rfl
      have hwp := wp_ite
        (fun _ => createAuthEIP8_wp (c := env.crypto) draw pad hkey)
        (fun _ => createAuthNonEIP8_wp (c := env.crypto) draw hkey) (c := options.useEIP8)
      apply wp_mono hwp ?_ (fun _ _ _ => trivial)
      rintro packet e' ⟨hpacket, hkey, hmac⟩
      rw [← some_get hpacket]
      simp only [afterPacket, wp_bind, write, wp_modify]
      -- the packet is out, and nothing else has happened yet
      have hsilent : (.connect : Event) ∉ ([] : List Event) := not_mem_nil
      have hauthentic : IdOf (some (.bytes remoteId)) e'.remotePublicKey := ⟨remoteId, rfl, hkey⟩
      exact {
        framed := fun h => absurd ((congrArg Option.isSome hmac).symm.trans h) Bool.false_ne_true
        early := fun _ => ⟨rfl, rfl, rfl, hsilent⟩
        pending := fun h => absurd rfl h
        outbound := fun _ => ⟨⟨_, rfl, hauthentic⟩, RLPxConnectionState.noConfusion⟩
        once := fun _ => Nat.zero_le 1
        identity := fun _ h => absurd h hsilent
        settled := fun _ h => by cases h }
    · exact fun hnot => absurd rfl hnot
  simp only [new, hdirection, isSome_some, and_self, if_true] at hnew
  exact wp_ok hnew hwp

theorem Started.sound (h : Started env c) : Sound c := by
  cases h with
  | inbound options privateKey nonce ephemeral hdirection =>
    exact sound_created options privateKey nonce ephemeral hdirection
  | outbound options privateKey remoteId nonce ephemeral draw pad _ hdirection hnew =>
    exact sound_new hdirection hnew

/-- In every run whose accepted HELLO messages came before any 'connect' and named the peer
that had authenticated itself, 'connect' is emitted once at most, and from then on `getId()` is
the id of the authenticated key and never changes. An outbound connection needs only the former. -/
theorem run_identity (env : Env) {c : Connection} (hstart : Started env c)
    (before after : List Input) (htrusted : Trusted (run env c (before ++ after))) :
    (run env c (before ++ after)).emitted.count .connect ≤ 1 ∧
      (.connect ∈ (run env c before).emitted →
        Authentic (run env c before) ∧ Authentic (run env c (before ++ after)) ∧
          (run env c (before ++ after)).getId = (run env c before).getId) := by
  have hs : Sound (run env c before) := (run_sound hstart.sound before).1
  obtain ⟨hs', hgrown⟩ := run_sound hs after
  have hsplit : run env c (before ++ after) = run env (run env c before) after :=
    foldl_append
  rw [hsplit] at htrusted ⊢
  refine ⟨hs'.once htrusted, fun hconnect => ?_⟩
  have ha := hs.identity (hgrown.trusted htrusted) hconnect
  refine ⟨ha, hs'.identity htrusted (hgrown.connects hconnect), hgrown.id ?_⟩
  obtain ⟨id, hid, -⟩ := ha
  exact isSome_of_eq_some hid

end Connection

/-! ## A listener and its peers -/

namespace Sample

open Connection

def key (n : UInt8) : Bytes := List.replicate 32 n

def nodeId (n : UInt8) : Bytes := (env.crypto.getPublicKey (key n)).drop 1

def draw (n : UInt8) : Draw := ⟨key n, List.replicate 16 n⟩

def padding : Bytes := List.replicate 100 0

def listener : Connection :=
  created env { options .inbound with nodeId := nodeId 1 } (key 1) none (key 2) (key 3)

def dialler : Connection :=
  (Connection.new env { options .outbound with nodeId := nodeId 4 } (key 4) (some (nodeId 1))
    (key 5) (key 6) (draw 7) padding).2

/-- A HELLO of version 4, which knows no compression, with any id. -/
def helloWith (id : Bytes) : Bytes :=
  Rlp.encode (.list [.bytes [4], .bytes [], .list [.list [.bytes "eth".toUTF8.toList, .bytes [68]]],
    .bytes [], .bytes id])

/-- The dialler's HELLO messages, after both handshake packets. -/
def hellos (ids : List Bytes) : Bytes :=
  let answer := (run env listener [.data dialler.written, .tick (draw 8) padding]).written
  let sends := ids.map fun id => Input.send RLPX_PREFIXES.HELLO (helloWith id)
  (run env dialler (.data answer :: sends)).written.drop dialler.written.length

/-- What the listener is told. -/
def told (ids : List Bytes) : List Input :=
  [.data dialler.written, .tick (draw 8) padding, .data (hellos ids)]

theorem listener_started : Started env listener := .inbound _ _ _ _ rfl

theorem trusted_told : Trusted (run env listener (told [nodeId 4])) := by
  have haccepted : (run env listener (told [nodeId 4])).accepted =
      [⟨some (.bytes (nodeId 4)), some (id2pk (nodeId 4)), false⟩] := by decide +kernel
  intro h hmem
  rw [haccepted] at hmem
  cases mem_singleton.mp hmem
  exact ⟨rfl, fun _ => ⟨nodeId 4, rfl, rfl⟩⟩

theorem run_identity_sample : (run env listener (told [nodeId 4])).emitted.count .connect ≤ 1 ∧
      Authentic (run env listener (told [nodeId 4])) := by
  have h := run_identity env listener_started (told [nodeId 4]) [] trusted_told
  exact ⟨h.1, (h.2 (by decide +kernel)).2.1⟩

/-- A peer that has authenticated itself with one key goes by the id of another, and one that
repeats its HELLO is connected twice. -/
theorem run_identity_impostor : Started env listener ∧
      (.connect ∈ (run env listener (told [nodeId 9])).emitted ∧
        ¬ Authentic (run env listener (told [nodeId 9]))) ∧
      (run env listener (told [nodeId 4, nodeId 4])).emitted.count .connect = 2 := by
  refine ⟨listener_started, ⟨by decide +kernel, ?_⟩, by decide +kernel⟩
  rintro ⟨id, hid, bytes, rfl, hkey⟩
  have hlied : (run env listener (told [nodeId 9])).getId = some (some (.bytes (nodeId 9))) := by
    decide +kernel
  have hknown : (run env listener (told [nodeId 9])).eciesSession.remotePublicKey =
      some (id2pk (nodeId 4)) := by decide +kernel
  cases hlied.symm.trans hid
  exact absurd (hknown.symm.trans hkey) (by decide)

end Sample
end Rlpx
