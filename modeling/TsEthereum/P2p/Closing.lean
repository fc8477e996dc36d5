-- SUMMARY: What makes an RLPx connection stop, what it still hands over afterwards, and whether its socket is ended.
import TsEthereum.P2p.ReceiveLoop

/-!
# Closing

A connection stops with a failed check, a message that nobody may get, a handler that
throws, a DISCONNECT, or a call of `disconnect`. The socket is ended two seconds after
our DISCONNECT has been sent, or at once when the peer's has been read: both set
`disconnectWe`. The receive loop itself does not look at `closed`.
-/

namespace Rlpx

open Program ECIES

namespace Connection

variable {env : Env}

/-! ## Messages for a handler -/

/-- The receiver of the message in a body; without one the connection disconnects. -/
def addressee (c : Connection) (body : Bytes) : Option (Receiver × Nat) :=
  let code := body.head?.map fun b => if b = 0x80 then 0 else b.toNat
  if code ≠ some RLPX_PREFIXES.HELLO ∧ code ≠ some RLPX_PREFIXES.DISCONNECT ∧ c.hello.isNone then none
  else getProtocol c code

/-- A message as a handler gets it. -/
inductive Delivery where
  | base (code : Nat) (msg : Rlp.Item)
  | subprotocol (obj : ProtocolDescriptor) (code : Nat) (payload : Bytes)

/-- Payloads are compressed for a peer of version 5 or later. -/
def compressed (c : Connection) : Bool := c.hello.any fun hello => decide (hello.protocolVersion ≥ 5)

/-- What is read off a payload before a handler is called. -/
def decoded (env : Env) (c : Connection) (receiver : Receiver) (msgCode : Nat) (origPayload : Bytes) :
    Except Fault Delivery :=
  (if c.compressed then uncompress env origPayload else .ok origPayload) >>= fun payload =>
    match receiver with
    | .base => (decodeBase env msgCode c.compressed origPayload payload).map (.base msgCode)
    | .subprotocol obj => .ok (.subprotocol obj msgCode payload)

def handle (env : Env) : Delivery → Action Unit
  | .base code msg => handleMessage env code msg
  | .subprotocol obj code payload => handToSubprotocol env obj code payload

/-- `dispatch` decodes, and calls the handler. -/
theorem dispatch_eq (receiver : Receiver) (msgCode : Nat) (origPayload : Bytes) (c : Connection) :
    dispatch env receiver msgCode origPayload c =
      (ofExcept (decoded env c receiver msgCode origPayload) >>= handle env) c := by
  have hcases (plain : Except Fault Bytes) :
      (Program.ofExcept plain >>= fun payload => match receiver with
        | .base => Program.ofExcept (decodeBase env msgCode c.compressed origPayload payload) >>= handleMessage env msgCode
        | .subprotocol obj => handToSubprotocol env obj msgCode payload) c =
      (Program.ofExcept (plain >>= fun payload => match receiver with
        | .base => (decodeBase env msgCode c.compressed origPayload payload).map (Delivery.base msgCode)
        | .subprotocol obj => Except.ok (Delivery.subprotocol obj msgCode payload)) >>= handle env) c := by
    cases plain with
    | error fault => rfl
    | ok payload =>
      cases receiver with
      | subprotocol obj => rfl
      | base =>
        change (Program.ofExcept (decodeBase env msgCode c.compressed origPayload payload) >>= _) c =
          (Program.ofExcept ((decodeBase env msgCode c.compressed origPayload payload).map _) >>= _) c
        cases decodeBase env msgCode c.compressed origPayload payload <;> rfl
  exact (bind_of_ok (get_run c)).trans (hcases _)

/-- Whether a HELLO is from the peer that is expected. -/
def identified (c : Connection) (hello : HelloMessage) : Except Fault Bool :=
  match c.remoteId with
  | none => .ok true
  | some remoteId => equalsBytes remoteId hello.id

/-- `_handleHello` throws, or disconnects. -/
def refusesHello (env : Env) (c : Connection) (msg : Rlp.Item) : Bool :=
  match parseHello env msg with
  | .error _ => true
  | .ok hello =>
    match identified c hello with
    | .ok true => filtered env c hello || (negotiate c.options.capabilities hello.capabilities).isEmpty
    | _ => true

/-- The handler throws, or disconnects, or it is a DISCONNECT that it gets. -/
def Delivery.stops (env : Env) (c : Connection) : Delivery → Bool
  | .base code msg =>
    if code = RLPX_PREFIXES.HELLO then refusesHello env c msg else decide (code = RLPX_PREFIXES.DISCONNECT)
  | .subprotocol obj code payload => env.throws obj code payload

/-- What the body that a step reads comes to: nothing, a message, or an end. -/
inductive Outcome where
  | nothing
  | ends
  | delivered (d : Delivery)

def outcome (env : Env) (c : Connection) : Outcome :=
  match c.state with
  | .Body =>
    match (ECIES.parseBody env.crypto (c.socketData.take c.nextPacketSize) c.eciesSession).1 with
    | .error _ => .ends
    | .ok none => .nothing
    | .ok (some body) =>
      match addressee c body with
      | none => .ends
      | some (receiver, msgCode) =>
        match decoded env c receiver msgCode (body.drop 1) with
        | .error _ => .ends
        | .ok d => .delivered d
  | _ =>
    match ((reader env).step c).1 with
    | .error _ => .ends
    | .ok _ => .nothing

/-- A step of the loop, or a call. -/
structure Mark where
  /-- The connection hits an error, calls `disconnect` or processes a DISCONNECT. -/
  stops : Bool
  /-- A handler gets a message. -/
  delivers : Bool
  deriving DecidableEq

def mark (env : Env) (c : Connection) : Mark :=
  match outcome env c with
  | .nothing => ⟨false, false⟩
  | .ends => ⟨true, false⟩
  | .delivered d => ⟨d.stops env c, true⟩

/-! ## Runs -/

/-- The states in which the loop takes its steps. -/
def visited (env : Env) : Nat → Connection → List Connection
  | 0, _ => []
  | fuel + 1, c =>
    if (reader env).ready c then
      c :: match (reader env).step c with
        | (.ok _, c') => visited env fuel c'
        | (.error _, _) => []
    else []

/-- The states in which the loop takes its steps when a chunk comes in. -/
def readingOf (env : Env) (c : Connection) (chunk : Bytes) : List Connection :=
  if c.destroyed || c.closed then []
  else visited env (2 * (c.socketData.length + chunk.length) + 4) (c.received chunk)

def marks (env : Env) (c : Connection) : Input → List Mark
  | .data chunk => (readingOf env c chunk).map (mark env)
  | .pingTimeout => [⟨true, false⟩]
  | .disconnect _ => [⟨true, false⟩]
  | _ => []

def trace (env : Env) : Connection → List Input → List Mark
  | _, [] => []
  | c, input :: inputs => marks env c input ++ trace env (respond env c input) inputs

/-- The socket is ended, or will be in two seconds; or it was closed or destroyed. -/
def Ended (inputs : List Input) (c : Connection) : Prop :=
  c.disconnectWe.isSome = true ∨ c.destroyed = true ∨ .socketClose ∈ inputs

/-- Once stopped, no message is handed over, and the socket is ended. -/
structure StopsCleanly (env : Env) (c : Connection) (inputs : List Input) : Prop where
  quiet : (trace env c inputs).Pairwise fun m m' => m.stops = true → m'.delivers = false
  ended : ∀ m ∈ trace env c inputs, m.stops = true → Ended inputs (run env c inputs)

/-! ## When that is so -/

/-- The condition on a step of the loop. -/
structure Orderly (env : Env) (c : Connection) : Prop where
  /-- The loop comes to no body once the connection is closed. -/
  last : c.closed = true → c.state ≠ .Body
  /-- What stops the connection comes after the handshake. -/
  late : c.closed = false → (mark env c).stops = true → Late c
  /-- A DISCONNECT has a reason that can be read. -/
  reason : c.closed = false → ∀ msg, outcome env c = .delivered (.base RLPX_PREFIXES.DISCONNECT msg) →
    ∃ reason, disconnectReasonOf msg = .ok reason

/-- A step that does not stop an open connection is orderly. -/
theorem Orderly.of_goes {c : Connection} (hopen : c.closed = false) (hgoes : (mark env c).stops = false) :
    Orderly env c where
  last hclosed := absurd (hopen.symm.trans hclosed) Bool.false_ne_true
  late _ hstops := absurd (hgoes.symm.trans hstops) Bool.false_ne_true
  reason _ msg hmsg := by
    unfold mark at hgoes
    rw [hmsg] at hgoes
    cases hgoes

/-- The condition on an input: `disconnect` is called once frames can be written, or where there is
nothing to end. -/
def OrderlyInput (env : Env) (c : Connection) : Input → Prop
  | .data chunk => ∀ c' ∈ readingOf env c chunk, Orderly env c'
  | .pingTimeout | .disconnect _ => c.closed = true ∨ c.destroyed = true ∨ CanWrite c.eciesSession
  | _ => True

def OrderlyRun (env : Env) : Connection → List Input → Prop
  | _, [] => True
  | c, input :: inputs => OrderlyInput env c input ∧ OrderlyRun env (respond env c input) inputs

/-! ## Calls of `disconnect` -/

/-- Stopped, with the end of the socket under way. -/
structure Closing (c : Connection) : Prop where
  closed : c.closed = true
  ended : c.disconnectWe.isSome = true

/-- Frames can be written. -/
structure Writable (c : Connection) : Prop where
  isOpen : c.closed = false
  alive : c.destroyed = false
  keys : CanWrite c.eciesSession

/-- Where `disconnect` leads to `Closing`. -/
def Closable (c : Connection) : Prop := Closing c ∨ Writable c

theorem sendMessage_closed {c : Connection} (h : c.closed = true) (code : Nat) (data : Bytes) :
    sendMessage env code data c = (.ok false, c) := by
  unfold sendMessage
  apply (bind_of_ok (get_run c)).trans
  simp only [h, if_true]
  rfl

theorem disconnect_closed {c : Connection} (h : c.closed = true) (reason : Nat) :
    disconnect env reason c = (.ok (), c) :=
  (bind_of_ok (sendMessage_closed h _ _)).trans rfl

/-- What is written ends on the wire that it began on. -/
theorem Writable.writes {c : Connection} (h : Writable c) : ∃ w, Writes c.eciesSession w := by
  obtain ⟨aes, haes⟩ := Option.isSome_iff_exists.mp h.keys.1
  obtain ⟨mac, hmac⟩ := Option.isSome_iff_exists.mp h.keys.2
  exact ⟨⟨aes, mac⟩, haes, hmac⟩

variable {E : Fault → Connection → Prop}

theorem disconnect_writable {c : Connection} (h : Writable c) (reason : Nat) :
    (disconnect env reason).wp (fun _ c' => Closing c' ∧ c'.disconnectWe = some true) E c := by
  obtain ⟨w, hw⟩ := h.writes
  simp only [disconnect, wp_bind]
  apply sendMessage_wp h.isOpen h.alive hw
  intro e' _
  apply wp_when
  · exact fun _ => ⟨⟨rfl, rfl⟩, rfl⟩
  · exact fun hnot => absurd rfl hnot

theorem disconnect_closable {c : Connection} (h : Closable c) (reason : Nat) {E : Fault → Connection → Prop} :
    (disconnect env reason).wp (fun _ c' => Closing c') E c := by
  rcases h with h | h
  · exact wp_of_run (disconnect_closed h.closed reason) h
  · exact wp_mono (disconnect_writable h reason) (fun _ _ hdone => hdone.1) fun _ _ hthrew => hthrew

/-- The `catch` ends what has thrown. -/
theorem orDisconnect_closing {p : Action Unit} {c : Connection} {E : Fault → Connection → Prop}
    (h : p.wp (fun _ c' => Closing c') (fun _ c' => Closable c') c) :
    (orDisconnect env p).wp (fun _ c' => Closing c') E c := by
  simp only [orDisconnect, wp_bind, wp_attempt]
  apply wp_mono h
  · exact fun _ _ hdone => hdone
  · intro fault c' hclosable
    apply wp_mono (disconnect_closable hclosable _)
    · exact fun _ _ hdone => ⟨hdone.closed, hdone.ended⟩
    · exact fun _ _ hthrew => hthrew

theorem sendPong_writable {c : Connection} (h : Writable c) :
    (sendPong env).wp (fun _ c' => c'.closed = false) (fun _ _ => False) c := by
  obtain ⟨w, hw⟩ := h.writes
  simp only [sendPong, wp_bind, wp_get]
  apply sendMessage_wp h.isOpen h.alive hw
  exact fun _ _ => h.isOpen

/-! ## Handlers -/

theorem acceptHello_refused {hello : HelloMessage} {c : Connection} (hc : Writable c)
    (hrefused : (filtered env c hello || (negotiate c.options.capabilities hello.capabilities).isEmpty) = true) :
    (acceptHello env hello).wp (fun _ c' => Closing c') (fun _ c' => Closable c') c := by
  simp only [acceptHello, wp_bind, wp_get]
  apply wp_ite
  · exact fun _ => disconnect_closable (.inr hc) _
  · intro hpasses
    simp only [wp_bind, wp_modify]
    apply wp_ite
    · intro _
      apply disconnect_closable
      exact .inr ⟨hc.isOpen, hc.alive, hc.keys⟩
    · intro hsome
      rcases (Bool.or_eq_true _ _).mp hrefused with hfiltered | hempty
      · exact absurd hfiltered hpasses
      · exact absurd (List.isEmpty_iff.mp hempty) hsome

theorem acceptHello_taken {hello : HelloMessage} {c : Connection} (hopen : c.closed = false)
    (htaken : (filtered env c hello || (negotiate c.options.capabilities hello.capabilities).isEmpty) = false) :
    (acceptHello env hello).wp (fun _ c' => c'.closed = false) (fun _ _ => False) c := by
  obtain ⟨hpasses, hsome⟩ := Bool.or_eq_false_iff.mp htaken
  have hne : ¬negotiate c.options.capabilities hello.capabilities = [] := fun hnil =>
    Bool.false_ne_true (hsome.symm.trans (List.isEmpty_iff.mpr hnil))
  simp only [acceptHello, wp_bind, wp_get, hpasses, Bool.false_eq_true, if_false, wp_modify, hne]
  apply wp_when
  · exact fun _ => hopen
  · exact fun _ => hopen

/-- A HELLO changes neither the session nor the end of the connection before it is answered. -/
structure Unanswered (c c' : Connection) : Prop where
  session : c'.eciesSession = c.eciesSession
  closed : c'.closed = c.closed
  destroyed : c'.destroyed = c.destroyed

variable {c' : Connection}

theorem Unanswered.writable {c : Connection} (h : Unanswered c c') (hc : Writable c) :
    Writable c' :=
  ⟨h.closed.trans hc.isOpen, h.destroyed.trans hc.alive, h.session ▸ hc.keys⟩

variable {msg : Rlp.Item} {Q : Unit → Connection → Prop}

/-- A HELLO is refused by an exception or for its identity, or goes on to the negotiation. -/
theorem wp_handleHello {c : Connection}
    (hthrew : ∀ fault {c'}, Unanswered c c' → refusesHello env c msg = true → E fault c')
    (hother : ∀ {c'}, Unanswered c c' → refusesHello env c msg = true →
      (disconnect env DISCONNECT_REASON.INVALID_IDENTITY).wp Q E c')
    (haccept : ∀ hello {c'}, Unanswered c c' → refusesHello env c msg =
      (filtered env c' hello || (negotiate c'.options.capabilities hello.capabilities).isEmpty) →
      (acceptHello env hello).wp Q E c') : (handleHello env msg).wp Q E c := by
  have hrefuses : refusesHello env c msg = match parseHello env msg with
      | .error _ => true
      | .ok hello => match identified c hello with
        | .ok true => filtered env c hello || (negotiate c.options.capabilities hello.capabilities).isEmpty
        | _ => true := rfl
  unfold handleHello
  rw [wp_bind]
  cases hparse : parseHello env msg with
  | error fault =>
    rw [hparse] at hrefuses
    exact hthrew fault ⟨rfl, rfl, rfl⟩ hrefuses
  | ok hello =>
    rw [hparse] at hrefuses
    unfold identified at hrefuses
    simp only [wp_ofExcept_ok, wp_bind, wp_modify, wp_get]
    cases hid : c.remoteId with
    | none =>
      rw [hid] at hrefuses
      simp only [wp_bind, wp_modify]
      exact haccept hello ⟨rfl, rfl, rfl⟩ hrefuses
    | some remoteId =>
      rw [hid] at hrefuses
      simp only [wp_bind]
      cases hequal : equalsBytes remoteId hello.id with
      | error fault =>
        simp only [hequal] at hrefuses
        exact hthrew fault ⟨rfl, rfl, rfl⟩ hrefuses
      | ok same =>
        simp only [hequal] at hrefuses
        simp only [wp_ofExcept_ok]
        cases same with
        | true => exact haccept hello ⟨rfl, rfl, rfl⟩ hrefuses
        | false => exact hother ⟨rfl, rfl, rfl⟩ hrefuses

/-- A HELLO that is refused ends the connection. -/
theorem handleHello_refused {c : Connection} (hc : Writable c)
    (hrefused : refusesHello env c msg = true) :
    (handleHello env msg).wp (fun _ c' => Closing c') (fun _ c' => Closable c') c := by
  apply wp_handleHello
  · exact fun _ _ hsame _ => .inr (hsame.writable hc)
  · exact fun hsame _ => disconnect_closable (.inr (hsame.writable hc)) _
  · exact fun hello _ hsame hrefuses => acceptHello_refused (hsame.writable hc) (hrefuses.symm.trans hrefused)

theorem handleHello_taken {c : Connection} (hopen : c.closed = false)
    (htaken : refusesHello env c msg = false) :
    (handleHello env msg).wp (fun _ c' => c'.closed = false) (fun _ _ => False) c := by
  apply wp_handleHello
  · exact fun _ _ _ hrefused => Bool.false_ne_true (htaken.symm.trans hrefused)
  · exact fun _ hrefused => absurd (htaken.symm.trans hrefused) Bool.false_ne_true
  · exact fun hello _ hsame hrefuses => acceptHello_taken (hsame.closed.trans hopen) (hrefuses.symm.trans htaken)

/-- A handler that stops the connection: it throws, or disconnects, or gets a DISCONNECT. -/
theorem handle_stops {d : Delivery} {c : Connection} (hc : Writable c) (hstops : d.stops env c = true)
    (hreason : ∀ msg, d = .base RLPX_PREFIXES.DISCONNECT msg → ∃ reason, disconnectReasonOf msg = .ok reason) :
    (handle env d).wp (fun _ c' => Closing c') (fun _ c' => Closable c') c := by
  cases d with
  | subprotocol obj code payload =>
    have hthrows : env.throws obj code payload = true := hstops
    simp only [handle, handToSubprotocol, wp_bind, wp_modify, hthrows, if_true]
    exact .inr ⟨hc.isOpen, hc.alive, hc.keys⟩
  | base code msg =>
    simp only [Delivery.stops] at hstops
    simp only [handle, handleMessage]
    split at hstops
    · next hcode =>
      rw [if_pos hcode]
      exact handleHello_refused hc hstops
    · next hcode =>
      obtain rfl := of_decide_eq_true hstops
      obtain ⟨reason, hread⟩ := hreason msg rfl
      rw [if_neg hcode, if_pos rfl]
      simp only [handleDisconnect, wp_bind, wp_modify, hread, wp_ofExcept_ok]
      exact ⟨rfl, rfl⟩

theorem handle_goes {d : Delivery} {c : Connection} (hc : Writable c) (hgoes : d.stops env c = false) :
    (handle env d).wp (fun _ c' => c'.closed = false) (fun _ _ => False) c := by
  cases d with
  | subprotocol obj code payload =>
    have hreturns : env.throws obj code payload = false := hgoes
    simp only [handle, handToSubprotocol, wp_bind, wp_modify, hreturns, Bool.false_eq_true, if_false]
    exact hc.isOpen
  | base code msg =>
    simp only [Delivery.stops] at hgoes
    simp only [handle, handleMessage]
    split at hgoes
    · next hcode =>
      rw [if_pos hcode]
      exact handleHello_taken hc.isOpen hgoes
    · next hcode =>
      rw [if_neg hcode, if_neg (of_decide_eq_false hgoes)]
      apply wp_ite
      · exact fun _ => sendPong_writable hc
      · exact fun _ => hc.isOpen

/-! ## Steps -/

theorem wp_dispatch {receiver : Receiver} {msgCode : Nat} {origPayload : Bytes} {c : Connection}
    (h : (ofExcept (decoded env c receiver msgCode origPayload) >>= handle env).wp Q E c) :
    (dispatch env receiver msgCode origPayload).wp Q E c := by
  unfold wp at h ⊢
  rw [dispatch_eq]
  exact h

/-- The state in which a body is looked at. -/
def bodyRead (c : Connection) (e : ECIES) : Connection :=
  { c with eciesSession := e, state := .Header, nextPacketSize := 32 }

/-- What a step that reads a body comes to. -/
theorem wp_handleBody {c : Connection}
    (hthrew : ∀ {fault e}, parseBody env.crypto (c.socketData.take c.nextPacketSize) c.eciesSession =
      (.error fault, e) → E fault { c with eciesSession := e })
    (hnone : ∀ {e}, parseBody env.crypto (c.socketData.take c.nextPacketSize) c.eciesSession =
      (.ok none, e) → Q () { c with eciesSession := e })
    (hnobody : ∀ {e body}, parseBody env.crypto (c.socketData.take c.nextPacketSize) c.eciesSession =
      (.ok (some body), e) → addressee c body = none →
      (disconnect env DISCONNECT_REASON.PROTOCOL_ERROR).wp Q E (c.bodyRead e))
    (hto : ∀ {e body receiver msgCode},
      parseBody env.crypto (c.socketData.take c.nextPacketSize) c.eciesSession = (.ok (some body), e) →
      addressee c body = some (receiver, msgCode) →
      (orDisconnect env (dispatch env receiver msgCode (body.drop 1))).wp
        (fun _ c' => Q () { c' with socketData := c'.socketData.drop c.nextPacketSize }) E (c.bodyRead e)) :
     (handleBody env).wp Q E c := by
  simp only [handleBody, wp_bind, wp_get, withSession, wp_onPart]
  rcases hrun : parseBody env.crypto (c.socketData.take c.nextPacketSize) c.eciesSession
    with ⟨fault | body, e⟩
  · unfold wp
    rw [hrun]
    exact hthrew hrun
  · apply wp_of_run hrun
    cases body with
    | none => exact hnone hrun
    | some body =>
      have hnobody := @hnobody e body hrun
      have hto := fun receiver msgCode => @hto e body receiver msgCode hrun
      unfold addressee at hnobody hto
      simp only [wp_bind, wp_modify]
      split
      · next hearly =>
        simp only [if_pos hearly] at hnobody
        exact hnobody trivial
      · next hlate =>
        simp only [if_neg hlate] at hnobody hto
        cases hprotocol : getProtocol c _ with
        | none => exact hnobody hprotocol
        | some found =>
          simp only [wp_bind]
          exact hto found.1 found.2 hprotocol

/-- How far the connection is from its end has not changed. -/
structure SameEnd (c c' : Connection) : Prop where
  closed : c'.closed = c.closed
  destroyed : c'.destroyed = c.destroyed
  disconnectWe : c'.disconnectWe = c.disconnectWe

instance : IsPreorder Connection SameEnd where
  refl _ := ⟨rfl, rfl, rfl⟩
  trans _ _ _ h h' := ⟨h'.closed.trans h.closed, h'.destroyed.trans h.destroyed,
    h'.disconnectWe.trans h.disconnectWe⟩

theorem SameEnd.closing {c : Connection} (h : SameEnd c c') (hc : Closing c) : Closing c' :=
  ⟨h.closed.trans hc.closed, h.disconnectWe ▸ hc.ended⟩

/-- A header that is refused was read with keys. -/
theorem handleHeader_end {c : Connection} : (handleHeader env).wp (fun _ c' => SameEnd c c')
    (fun _ c' => SameEnd c c' ∧ (Framed c → CanWrite c'.eciesSession)) c := by
  have hquiet := @sessionQuiet_parseHeader env (c.socketData.take c.nextPacketSize) c.eciesSession
  simp only [handleHeader, wp_bind, wp_get, withSession, wp_onPart]
  unfold wp
  rcases hrun : parseHeader env.crypto (c.socketData.take c.nextPacketSize) c.eciesSession
    with ⟨fault | size, e⟩
  · rw [hrun] at hquiet
    refine ⟨⟨rfl, rfl, rfl⟩, fun hframed => hquiet.canWrite (hframed ?_)⟩
    cases hmac : c.eciesSession.ingressMac with
    | some mac => rfl
    | none =>
      simp only [parseHeader, hmac] at hrun
      cases hrun
  · cases size with
    | none => exact ⟨rfl, rfl, rfl⟩
    | some size => exact ⟨rfl, rfl, rfl⟩

/-- What holds in every state that the loop takes a step in. -/
structure Steady (c : Connection) : Prop extends Sound c, Keyed c where
  alive : c.destroyed = false

theorem Steady.step {c : Connection} (h : Steady c) (hstep : (reader env).step c = (.ok (), c')) :
    Steady c' := by
  have hdone := @wp_ok _ _ _ (fun _ c' => Settled c c') _ _ _ _ _ hstep (step_sound h.toSound h.alive)
  exact ⟨hdone.1, (keyed_step h.toKeyed hstep).1, hdone.2.destroyed.trans h.alive⟩

/-- A body is waited for with keys, so it can be answered. -/
theorem Steady.writable {c : Connection} (h : Steady c) (hopen : c.closed = false) (hstate : c.state = .Body) :
    Writable c :=
  ⟨hopen, h.alive, h.framed (h.body hstate)⟩

theorem Writable.parsed {c : Connection} (h : Writable c) {data : Bytes} {outcome : Except Fault (Option Bytes)}
    {e : ECIES} (hrun : parseBody env.crypto data c.eciesSession = (outcome, e)) : CanWrite e := by
  have hquiet := @sessionQuiet_parseBody env data c.eciesSession
  rw [hrun] at hquiet
  exact hquiet.canWrite h.keys

theorem outcome_of_state {c : Connection} (hstate : c.state ≠ .Body) :
    outcome env c = match ((reader env).step c).1 with
      | .error _ => .ends
      | .ok _ => .nothing := by
  unfold outcome
  split
  · next hbody => exact absurd hbody hstate
  · rfl

/-- Where a step fails outside a body, that stops the connection. -/
theorem stops_of_error {c : Connection} {fault : Fault} (hstate : c.state ≠ .Body)
    (hstep : (reader env).step c = (.error fault, c')) : (mark env c).stops = true := by
  unfold mark
  rw [outcome_of_state hstate, hstep]

theorem goes_of_ok {c : Connection} (hstate : c.state ≠ .Body)
    (hstep : (reader env).step c = (.ok (), c')) : (mark env c).stops = false := by
  unfold mark
  rw [outcome_of_state hstate, hstep]

section
variable {c : Connection} {e : ECIES} {body : Bytes} {receiver : Receiver} {msgCode : Nat}

theorem outcome_threw {fault : Fault} (hstate : c.state = .Body)
    (hrun : parseBody env.crypto (c.socketData.take c.nextPacketSize) c.eciesSession = (.error fault, e)) :
    outcome env c = .ends := by
  simp only [outcome, hstate, hrun]

theorem outcome_none (hstate : c.state = .Body)
    (hrun : parseBody env.crypto (c.socketData.take c.nextPacketSize) c.eciesSession = (.ok none, e)) :
    outcome env c = .nothing := by
  simp only [outcome, hstate, hrun]

theorem outcome_nobody (hstate : c.state = .Body)
    (hrun : parseBody env.crypto (c.socketData.take c.nextPacketSize) c.eciesSession = (.ok (some body), e))
    (hnobody : addressee c body = none) : outcome env c = .ends := by
  simp only [outcome, hstate, hrun, hnobody]

theorem outcome_to (hstate : c.state = .Body)
    (hrun : parseBody env.crypto (c.socketData.take c.nextPacketSize) c.eciesSession = (.ok (some body), e))
    (hto : addressee c body = some (receiver, msgCode)) :
    outcome env c = match decoded env c receiver msgCode (body.drop 1) with
      | .error _ => .ends
      | .ok d => .delivered d := by
  simp only [outcome, hstate, hrun, hto]

end

/-- What a message does depends neither on the session nor on the place in the stream. -/
theorem Delivery.stops_bodyRead (d : Delivery) (c : Connection) (e : ECIES) :
    d.stops env (c.bodyRead e) = d.stops env c := by
  cases d <;> rfl

theorem decoded_bodyRead (c : Connection) (e : ECIES) (receiver : Receiver) (msgCode : Nat) (origPayload : Bytes) :
    decoded env (c.bodyRead e) receiver msgCode origPayload = decoded env c receiver msgCode origPayload := rfl

/-- A step that does not stop the connection leaves it open. -/
theorem step_goes {c : Connection} (h : Steady c) (hopen : c.closed = false)
    (hgoes : (mark env c).stops = false) :
    (reader env).step.wp (fun _ c' => c'.closed = false) (fun _ _ => False) c := by
  rcases hstate : c.state with _ | _ | _ | _
  case Body =>
    have hwritable := h.writable hopen hstate
    have hmark := hgoes
    unfold mark at hmark
    unfold wp
    rw [step_of_state, hstate]
    apply wp_handleBody
    · intro fault e hrun
      rw [outcome_threw hstate hrun] at hmark
      cases hmark
    · exact fun _ => hopen
    · intro e body hrun hnobody
      rw [outcome_nobody hstate hrun hnobody] at hmark
      cases hmark
    · intro e body receiver msgCode hrun hto
      rw [outcome_to hstate hrun hto] at hmark
      apply orDisconnect_wp
      apply wp_dispatch
      simp only [wp_bind, decoded_bodyRead]
      cases hdecoded : decoded env c receiver msgCode (body.drop 1) with
      | error fault =>
        rw [hdecoded] at hmark
        cases hmark
      | ok d =>
        rw [hdecoded] at hmark
        exact handle_goes ⟨hopen, h.alive, hwritable.parsed hrun⟩ ((d.stops_bodyRead c e).trans hmark)
  all_goals
    have hnot : c.state ≠ .Body := by rw [hstate]; decide
    unfold wp
    rcases hrun : (reader env).step c with ⟨fault | _, c'⟩
    · exact Bool.false_ne_true (hgoes.symm.trans (stops_of_error hnot hrun))
  case Auth =>
    rcases (reads_auth hstate).cases hrun with ⟨-, rfl⟩ | ⟨-, e, -, rfl⟩
    · exact hopen
    · exact hopen
  case Ack =>
    rcases (reads_ack hstate).cases hrun with ⟨-, rfl⟩ | ⟨-, e, -, rfl⟩
    · exact hopen
    · exact hopen
  case Header =>
    rw [step_of_state, hstate] at hrun
    exact (@wp_ok _ _ _ (fun _ c' => SameEnd c c') _ _ _ _ _ hrun handleHeader_end).closed.trans hopen

/-- A step that stops the connection with keys closes it, or throws to a `catch` that does. -/
theorem step_stops {c : Connection} (h : Steady c) (hopen : c.closed = false) (hlate : Late c)
    (hstops : (mark env c).stops = true)
    (hreason : ∀ msg, outcome env c = .delivered (.base RLPX_PREFIXES.DISCONNECT msg) →
      ∃ reason, disconnectReasonOf msg = .ok reason) :
    (reader env).step.wp (fun _ c' => Closing c') (fun _ c' => Closable c') c := by
  rcases hlate with hstate | hstate
  · have hnot : c.state ≠ .Body := by rw [hstate]; decide
    unfold wp
    rcases hrun : (reader env).step c with ⟨fault | _, c'⟩
    · rw [step_of_state, hstate] at hrun
      obtain ⟨hsame, hwrite⟩ := @wp_error _ _ _ _ (fun _ c' => SameEnd c c' ∧ (Framed c → CanWrite c'.eciesSession))
        _ _ _ _ hrun handleHeader_end
      exact .inr ⟨hsame.closed.trans hopen, hsame.destroyed.trans h.alive, hwrite h.framed⟩
    · exact absurd ((goes_of_ok hnot hrun).symm.trans hstops) Bool.false_ne_true
  · have hwritable := h.writable hopen hstate
    have hmark := hstops
    unfold mark at hmark
    unfold wp
    rw [step_of_state, hstate]
    apply wp_handleBody
    · exact fun hrun => .inr ⟨hopen, h.alive, hwritable.parsed hrun⟩
    · intro e hrun
      rw [outcome_none hstate hrun] at hmark
      cases hmark
    · intro e body hrun _
      apply disconnect_closable
      exact .inr ⟨hopen, h.alive, hwritable.parsed hrun⟩
    · intro e body receiver msgCode hrun hto
      have hread : Writable (c.bodyRead e) := ⟨hopen, h.alive, hwritable.parsed hrun⟩
      rw [outcome_to hstate hrun hto] at hmark hreason
      suffices hclosing : (orDisconnect env (dispatch env receiver msgCode (body.drop 1))).wp
          (fun _ c' => Closing c') (fun _ c' => Closable c') (c.bodyRead e) from
        wp_mono hclosing (fun _ _ hdone => ⟨hdone.closed, hdone.ended⟩) fun _ _ hthrew => hthrew
      apply orDisconnect_closing
      apply wp_dispatch
      simp only [wp_bind, decoded_bodyRead]
      cases hdecoded : decoded env c receiver msgCode (body.drop 1) with
      | error fault => exact .inr hread
      | ok d =>
        rw [hdecoded] at hmark hreason
        exact handle_stops hread ((d.stops_bodyRead c e).trans hmark)
          fun msg hmsg => hreason msg (congrArg Outcome.delivered hmsg)

/-- A header leaves a connection that is stopped as it is. -/
theorem step_closing {c : Connection} (h : Closing c) (hstate : c.state = .Header) :
    (reader env).step.wp (fun _ c' => Closing c') (fun _ c' => Closing c') c := by
  unfold wp
  rw [step_of_state, hstate]
  exact wp_mono handleHeader_end (fun _ _ hsame => hsame.closing h) fun _ _ hsame => hsame.1.closing h

theorem silent_of_state {c : Connection} (hstate : c.state ≠ .Body) : (mark env c).delivers = false := by
  unfold mark
  rw [outcome_of_state hstate]
  rcases ((reader env).step c).1 with _ | _ <;> rfl

end Connection
end Rlpx
