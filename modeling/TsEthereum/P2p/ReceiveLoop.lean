-- SUMMARY: When the receive loop of an RLPx connection comes to an end: always, but before the frame keys are there.
import TsEthereum.P2p.Changes

/-!
# The receive loop

Every step of the loop consumes bytes or moves the state on, but for a header that
comes before the keys to check it. Its step changes nothing, and the loop goes on with it.
-/

namespace Rlpx

open Program ECIES

namespace Connection

variable {env : Env}

/-! ## Keys of the incoming frames -/

/-- What a call of the session does to the cipher and the MAC of the incoming frames: they are
set together, and not taken back. -/
structure KeepsIngress (e e' : ECIES) : Prop where
  paired : e.ingressMac.isSome = e.ingressAes.isSome → e'.ingressMac.isSome = e'.ingressAes.isSome
  mac : e.ingressMac.isSome = true → e'.ingressMac.isSome = true

instance : IsPreorder ECIES KeepsIngress where
  refl _ := ⟨id, id⟩
  trans _ _ _ h h' := ⟨fun hp => h'.paired (h.paired hp), fun hm => h'.mac (h.mac hm)⟩

variable {e : ECIES}

theorem KeepsIngress.same {e' : ECIES} (hmac : e'.ingressMac = e.ingressMac)
    (haes : e'.ingressAes = e.ingressAes) : KeepsIngress e e' := by
  refine ⟨fun h => ?_, fun h => ?_⟩
  · rwa [hmac, haes]
  · rwa [hmac]

section

variable (c : Crypto)
include c

theorem keepsIngress_setupFrame (remoteData : Bytes) (incoming : Bool) (e : ECIES) :
    KeepsIngress e (e.setupFrame c remoteData incoming) := by
  unfold setupFrame
  split
  · exact ⟨fun _ => rfl, fun _ => rfl⟩
  · exact .same rfl rfl

theorem keepsIngress_finishAck (e : ECIES) (initMsg : Option Bytes) :
    KeepsIngress e (finishAck c { e with initMsg := initMsg }).2 := by
  unfold finishAck
  split
  · exact .same rfl rfl
  · have hsetup := keepsIngress_setupFrame c
    exact ⟨(hsetup _ true { e with initMsg := initMsg }).paired, (hsetup _ true { e with initMsg := initMsg }).mac⟩

theorem keepsIngress_createAckEIP8 (draw : Draw) (pad : Bytes) (e : ECIES) :
    KeepsIngress e (createAckEIP8 c draw pad e).2 := by
  unfold createAckEIP8
  simp only
  split
  · exact .same rfl rfl
  · exact .same rfl rfl
  · exact keepsIngress_finishAck c e _

theorem keepsIngress_createAckOld (draw : Draw) (e : ECIES) :
    KeepsIngress e (createAckOld c draw e).2 := by
  unfold createAckOld
  simp only
  split
  · exact .same rfl rfl
  · exact keepsIngress_finishAck c e _

theorem keepsIngress_parseAuthPlain (data : Bytes) (sharedMacData : Option Bytes) :
    (parseAuthPlain c data sharedMacData).Keeps KeepsIngress := by
  unfold parseAuthPlain
  apply keeps_bind (keeps_modify fun _ => ⟨id, id⟩)
  intro _
  apply keeps_bind keeps_get
  intro e
  apply keeps_bind (keeps_ofExcept _)
  intro decrypted
  apply keeps_bind (keeps_ofExcept _)
  intro body
  apply keeps_bind (keeps_modify fun _ => ⟨id, id⟩)
  intro _
  split
  · exact keeps_throw _
  · exact keeps_throw _
  · split
    · exact keeps_throw _
    · apply keeps_bind (keeps_modify fun _ => ⟨id, id⟩)
      intro _
      split
      · exact keeps_throw _
      · apply keeps_bind (keeps_modify fun _ => ⟨id, id⟩)
        intro _
        split
        · exact keeps_pure ()
        · exact keeps_ofExcept _

theorem keepsIngress_parseAckPlain (data : Bytes) (sharedMacData : Option Bytes) :
    (parseAckPlain c data sharedMacData).Keeps KeepsIngress := by
  unfold parseAckPlain
  apply keeps_bind keeps_get
  intro e
  apply keeps_bind (keeps_ofExcept _)
  intro decrypted
  apply keeps_bind (keeps_ofExcept _)
  intro body
  apply keeps_bind (keeps_modify fun _ => ⟨id, id⟩)
  intro _
  split
  · exact keeps_throw _
  · apply keeps_bind (keeps_modify fun _ => ⟨id, id⟩)
    intro _
    exact keeps_modify fun e => keepsIngress_setupFrame _ _ _ e

end

/-- How a header is read with keys: the MAC is checked, and the size comes with the cipher. -/
theorem keepsIngress_parseHeader (data : Bytes) (e : ECIES) :
    KeepsIngress e (parseHeader env.crypto data e).2 := by
  unfold parseHeader
  cases hmac : e.ingressMac with
  | none => exact .same rfl rfl
  | some mac =>
    simp only
    split
    · exact ⟨fun h => (congrArg Option.isSome hmac).symm.trans h, fun _ => rfl⟩
    · split
      · exact ⟨fun h => (congrArg Option.isSome hmac).symm.trans h, fun _ => rfl⟩
      · split <;> exact ⟨fun _ => rfl, fun _ => rfl⟩

theorem keepsIngress_parseBody (data : Bytes) (e : ECIES) :
    KeepsIngress e (parseBody env.crypto data e).2 := by
  unfold parseBody
  split
  · exact .same rfl rfl
  · cases hmac : e.ingressMac with
    | none => exact .same rfl rfl
    | some mac =>
      simp only
      split
      · exact ⟨fun h => (congrArg Option.isSome hmac).symm.trans h, fun _ => rfl⟩
      · split
        · exact ⟨fun h => (congrArg Option.isSome hmac).symm.trans h, fun _ => rfl⟩
        · exact ⟨fun _ => rfl, fun _ => rfl⟩

theorem keepsIngress_sessionCall {α : Type} {p : Program Fault ECIES α} (h : SessionCall env p) (e : ECIES) :
    KeepsIngress e (p e).2 := by
  cases h with
  | createBlockHeader size =>
    unfold createBlockHeader
    cases e.egressAes with
    | none => exact .same rfl rfl
    | some aes => cases e.egressMac <;> exact .same rfl rfl
  | createBody data =>
    unfold createBody
    cases e.egressAes with
    | none => exact .same rfl rfl
    | some aes => cases e.egressMac <;> exact .same rfl rfl
  | createAck draw pad gotEIP8Auth =>
    cases gotEIP8Auth
    · exact keepsIngress_createAckOld env.crypto draw e
    · exact keepsIngress_createAckEIP8 env.crypto draw pad e
  | parseAuthPlain data => exact (keepsIngress_parseAuthPlain env.crypto data none).outcome e
  | parseAuthEIP8 data =>
    exact (keeps_bind (keeps_ofExcept _) fun _ => keepsIngress_parseAuthPlain env.crypto _ _).outcome e
  | parseAckPlain data => exact (keepsIngress_parseAckPlain env.crypto data none).outcome e
  | parseAckEIP8 data =>
    exact (keeps_bind (keeps_ofExcept _) fun _ => keepsIngress_parseAckPlain env.crypto _ _).outcome e
  | gotEIP8Auth => exact .same rfl rfl
  | gotEIP8Ack => exact .same rfl rfl
  | parseHeader data => exact keepsIngress_parseHeader data e
  | parseBody data => exact keepsIngress_parseBody data e

/-- A body is waited for with keys. -/
structure Keyed (c : Connection) : Prop where
  paired : c.eciesSession.ingressMac.isSome = c.eciesSession.ingressAes.isSome
  body : c.state = .Body → c.eciesSession.ingressMac.isSome = true

def KeepsKeys (c c' : Connection) : Prop :=
  KeepsIngress c.eciesSession c'.eciesSession ∧
    (c'.state = .Body → c.state = .Body ∨ c'.eciesSession.ingressMac.isSome = true)

instance : IsPreorder Connection KeepsKeys where
  refl c := ⟨refl_of KeepsIngress _, .inl⟩
  trans _ _ _ h h' := by
    refine ⟨trans_of KeepsIngress h.1 h'.1, fun hbody => ?_⟩
    rcases h'.2 hbody with hbody' | hmac
    · exact (h.2 hbody').imp_right h'.1.mac
    · exact .inr hmac

variable {c c' : Connection}

theorem KeepsKeys.keyed (h : KeepsKeys c c') (hc : Keyed c) : Keyed c' where
  paired := h.1.paired hc.paired
  body hbody := (h.2 hbody).elim (fun hbody => h.1.mac (hc.body hbody)) id

/-- A size is read with a MAC. -/
theorem ingressMac_of_parseHeader {data : Bytes} {e' : ECIES} {size : Nat}
    (h : parseHeader env.crypto data e = (.ok (some size), e')) :
    e'.ingressMac.isSome = true := by
  have hkeeps := @keepsIngress_parseHeader env data e
  rw [h] at hkeeps
  cases hmac : e.ingressMac with
  | none =>
    unfold parseHeader at h
    rw [hmac] at h
    cases h
  | some mac => exact hkeeps.mac (congrArg Option.isSome hmac)

theorem keepsKeys_of_session (hsession : c'.eciesSession = c.eciesSession)
    (hbody : c'.state = .Body → c.state = .Body) : KeepsKeys c c' :=
  ⟨hsession ▸ refl_of KeepsIngress _, fun h => .inl (hbody h)⟩

theorem laws_keepsKeys : StreamLaws env KeepsKeys where
  aside h := keepsKeys_of_session h.session (h.state ▸ id)
  session hcall c := ⟨keepsIngress_sessionCall hcall _, .inl⟩
  buffer hstate hsession _ := keepsKeys_of_session hsession (hstate ▸ id)
  toHeader hstate hsession _ := keepsKeys_of_session hsession fun hbody => (nomatch hstate.symm.trans hbody)
  toBody {c c' data size} hrun _ _ := by
    have hkeeps := @keepsIngress_parseHeader env data c.eciesSession
    rw [hrun] at hkeeps
    exact ⟨hkeeps, fun _ => .inr (ingressMac_of_parseHeader hrun)⟩

/-! ## Reachable connections -/

theorem keepsIngress_createAuthEIP8 (c : Crypto) (draw : Draw) (pad : Bytes) (e : ECIES) :
    KeepsIngress e (createAuthEIP8 c draw pad e).2 := by
  unfold createAuthEIP8
  split
  · exact .same rfl rfl
  · split
    · exact .same rfl rfl
    · simp only
      split <;> exact .same rfl rfl

theorem keepsIngress_createAuthNonEIP8 (c : Crypto) (draw : Draw) (e : ECIES) :
    KeepsIngress e (createAuthNonEIP8 c draw e).2 := by
  unfold createAuthNonEIP8
  split
  · exact .same rfl rfl
  · split
    · exact .same rfl rfl
    · simp only
      split <;> exact .same rfl rfl

theorem keeps_sendAuth (draw : Draw) (pad : Bytes) : (sendAuth env draw pad).Keeps KeepsKeys := by
  unfold sendAuth
  apply keeps_bind keeps_get
  intro c
  apply keeps_when
  have hsession : (withSession (if c.options.useEIP8 then createAuthEIP8 env.crypto draw pad
      else createAuthNonEIP8 env.crypto draw)).Keeps KeepsKeys := by
    apply keeps_onPart
    intro c'
    refine ⟨?_, .inl⟩
    split
    · exact keepsIngress_createAuthEIP8 env.crypto draw pad c'.eciesSession
    · exact keepsIngress_createAuthNonEIP8 env.crypto draw c'.eciesSession
  refine keeps_bind hsession fun packet => ?_
  cases packet with
  | none => exact keeps_pure ()
  | some bytes =>
    refine keeps_bind ((@laws_keepsKeys env).outgoing.keeps_write bytes) fun _ => ?_
    exact keeps_modify fun _ => ⟨refl_of KeepsIngress _, fun hbody => (nomatch hbody)⟩

theorem Started.keyed (h : Started env c) : Keyed c := by
  have hcreated (options : Options) (privateKey nonce ephemeral : Bytes) (remoteId : Option Bytes) :
      Keyed (created env options privateKey remoteId nonce ephemeral) :=
    ⟨rfl, fun hbody => (nomatch hbody)⟩
  cases h with
  | inbound options privateKey nonce ephemeral _ => exact hcreated ..
  | outbound options privateKey remoteId nonce ephemeral draw pad _ hdirection hnew =>
    simp only [new, hdirection, Option.isSome_some, and_self, if_true] at hnew
    have hkeeps := (@keeps_sendAuth env draw pad).outcome
      (created env options privateKey (some remoteId) nonce ephemeral)
    rw [hnew] at hkeeps
    exact hkeeps.keyed (hcreated ..)

theorem run_keyed (h : Started env c) (inputs : List Input) : Keyed (run env c inputs) :=
  (laws_keepsKeys.run c inputs).keyed h.keyed

/-! ## Packets of the handshake -/

/-- What the reading of an AUTH packet and of an ACK packet has of its own. -/
structure HandshakePacket where
  parse : Bytes → Program Fault ECIES Unit
  got : ECIES → Bool
  mark : ECIES → ECIES
  callback : Callback
  got_mark : ∀ e, got (mark e) = true
  mark_of_got : ∀ e, got e = true → mark e = e

def authPacket (env : Env) : HandshakePacket where
  parse := ECIES.parseAuthEIP8 env.crypto
  got e := e.gotEIP8Auth
  mark e := { e with gotEIP8Auth := true }
  callback := .sendAck
  got_mark _ := rfl
  mark_of_got e h := by rw [← h]

def ackPacket (env : Env) : HandshakePacket where
  parse := ECIES.parseAckEIP8 env.crypto
  got e := e.gotEIP8Ack
  mark e := { e with gotEIP8Ack := true }
  callback := .sendHello
  got_mark _ := rfl
  mark_of_got e h := by rw [← h]

namespace HandshakePacket

variable (k : HandshakePacket)

/-- The size of the packet has been read. -/
def sized (c : Connection) : Connection :=
  { c with eciesSession := k.mark c.eciesSession, nextPacketSize := bytesToNat (c.socketData.take 2) + 2 }

/-- The packet has been read, which leaves the session `e`. -/
def done (c : Connection) (e : ECIES) : Connection :=
  { c with
    eciesSession := e
    state := .Header
    nextPacketSize := 32
    nextTick := c.nextTick ++ [k.callback]
    socketData := c.socketData.drop c.nextPacketSize }

/-- One step of the loop: the size first, then the packet. -/
structure Reads (step : Action Unit) (c : Connection) : Prop where
  size : k.got c.eciesSession = false → step c = (.ok (), k.sized c)
  threw : ∀ {fault e}, k.got c.eciesSession = true →
    k.parse (c.socketData.take c.nextPacketSize) c.eciesSession = (.error fault, e) →
    ∃ c', step c = (.error fault, c')
  done : ∀ {e}, k.got c.eciesSession = true →
    k.parse (c.socketData.take c.nextPacketSize) c.eciesSession = (.ok (), e) →
    step c = (.ok (), k.done c e)

end HandshakePacket

/-- Two bytes are a safe integer. -/
theorem bytesToInt_take_two (bytes : Bytes) : bytesToInt (bytes.take 2) = .ok (bytesToNat (bytes.take 2)) := by
  apply bytesToInt_of_lt rfl
  match bytes with
  | [] => decide
  | [a] =>
    change 256 * 0 + a.toNat < 2 ^ 53
    have ha := a.toNat_lt
    omega
  | a :: b :: _ =>
    change 256 * (256 * 0 + a.toNat) + b.toNat < 2 ^ 53
    have ha := a.toNat_lt
    have hb := b.toNat_lt
    omega

theorem step_of_state : (reader env).step c = (match c.state with
    | .Auth => handleAuth env
    | .Ack => handleAck env
    | .Header => handleHeader env
    | .Body => handleBody env) c := rfl

/-- The packet goes to the session, and the state moves on unless that throws. -/
theorem parsePacket_run {p : Program Fault ECIES Unit} {callback : Callback} {count : Nat} :
    (withSession p >>= fun _ => handshakeDone callback count) c = match p c.eciesSession with
      | (.error fault, e) => (.error fault, { c with eciesSession := e })
      | (.ok (), e) => handshakeDone callback count { c with eciesSession := e } := by
  change andThen (withSession p) _ c = _
  unfold andThen withSession onPart
  rcases p c.eciesSession with ⟨_ | _, e⟩ <;> rfl

theorem HandshakePacket.reads_of (k : HandshakePacket) {step : Action Unit}
    (hsize : k.got c.eciesSession = false → step c = (.ok (), k.sized c))
    (hpacket : k.got c.eciesSession = true → step c =
      (withSession (k.parse (c.socketData.take c.nextPacketSize)) >>= fun _ =>
        handshakeDone k.callback c.nextPacketSize) c) : k.Reads step c where
  size := hsize
  threw hgot hparse := by
    rw [hpacket hgot, parsePacket_run, hparse]
    exact ⟨_, rfl⟩
  done hgot hparse := by
    rw [hpacket hgot, parsePacket_run, hparse]
    rfl

theorem reads_auth (hstate : c.state = .Auth) : (authPacket env).Reads (reader env).step c := by
  have hstep : (reader env).step c = handleAuth env c := by rw [step_of_state, hstate]
  apply HandshakePacket.reads_of
  · intro hgot
    have hgot' : c.eciesSession.gotEIP8Auth = false := hgot
    rw [hstep]
    apply (bind_of_ok (get_run c)).trans
    simp only [hgot', if_true, sameArray, Bool.false_eq_true, if_false, bytesToInt_take_two]
    rfl
  · intro hgot
    have hgot' : c.eciesSession.gotEIP8Auth = true := hgot
    rw [hstep]
    apply (bind_of_ok (get_run c)).trans
    simp only [hgot', Bool.true_eq_false, if_false]
    rfl

theorem reads_ack (hstate : c.state = .Ack) : (ackPacket env).Reads (reader env).step c := by
  have hstep : (reader env).step c = handleAck env c := by rw [step_of_state, hstate]
  apply HandshakePacket.reads_of
  · intro hgot
    have hgot' : c.eciesSession.gotEIP8Ack = false := hgot
    rw [hstep]
    apply (bind_of_ok (get_run c)).trans
    simp only [hgot', if_true, sameArray, Bool.false_eq_true, if_false, bytesToInt_take_two]
    rfl
  · intro hgot
    have hgot' : c.eciesSession.gotEIP8Ack = true := hgot
    rw [hstep]
    apply (bind_of_ok (get_run c)).trans
    simp only [hgot', Bool.true_eq_false, if_false]
    rfl

/-! ## Where the loop goes on for ever -/

/-- A packet of the handshake is there and accepted, the session has no key after it, and the
bytes of a header follow. -/
def Outruns (k : HandshakePacket) (c : Connection) : Prop :=
  let size := if k.got c.eciesSession then c.nextPacketSize else bytesToNat (c.socketData.take 2) + 2
  c.nextPacketSize ≤ c.socketData.length ∧ size + 32 ≤ c.socketData.length ∧
    ∃ e, k.parse (c.socketData.take size) (k.mark c.eciesSession) = (.ok (), e) ∧ e.ingressMac = none

/-- The loop comes to a header without the keys to read it. -/
def LoopsForever (env : Env) (c : Connection) : Prop :=
  match c.state with
  | .Auth => Outruns (authPacket env) c
  | .Ack => Outruns (ackPacket env) c
  | .Header => c.eciesSession.ingressMac = none ∧ c.nextPacketSize ≤ c.socketData.length
  | .Body => False

theorem outruns_sized (k : HandshakePacket) (hgot : k.got c.eciesSession = false)
    (hready : c.nextPacketSize ≤ c.socketData.length) : Outruns k (k.sized c) ↔ Outruns k c := by
  have hmark := k.mark_of_got _ (k.got_mark c.eciesSession)
  unfold Outruns HandshakePacket.sized
  simp only [k.got_mark, hgot, hmark, if_true, Bool.false_eq_true, if_false]
  constructor
  · rintro ⟨-, hlong, haccepted⟩
    exact ⟨hready, hlong, haccepted⟩
  · rintro ⟨-, hlong, haccepted⟩
    exact ⟨Nat.le_of_add_right_le hlong, hlong, haccepted⟩

theorem loopsForever_done (k : HandshakePacket) (hgot : k.got c.eciesSession = true)
    (hready : c.nextPacketSize ≤ c.socketData.length)
    (hparse : k.parse (c.socketData.take c.nextPacketSize) c.eciesSession = (.ok (), e)) :
    LoopsForever env (k.done c e) ↔ Outruns k c := by
  have hmark := k.mark_of_got _ hgot
  unfold Outruns LoopsForever HandshakePacket.done
  simp only [hgot, hmark, if_true, List.length_drop, hparse, Prod.mk.injEq, true_and, exists_eq_left']
  constructor
  · rintro ⟨hnone, hlong⟩
    exact ⟨hready, by omega, hnone⟩
  · rintro ⟨-, hlong, hnone⟩
    exact ⟨hnone, by omega⟩

/-- What a step that reads a packet of the handshake can do. -/
theorem HandshakePacket.Reads.cases {k : HandshakePacket} {step : Action Unit} (h : k.Reads step c)
    (hstep : step c = (.ok (), c')) : (k.got c.eciesSession = false ∧ c' = k.sized c) ∨
      (k.got c.eciesSession = true ∧ ∃ e,
        k.parse (c.socketData.take c.nextPacketSize) c.eciesSession = (.ok (), e) ∧ c' = k.done c e) := by
  cases hgot : k.got c.eciesSession with
  | false => exact .inl ⟨rfl, congrArg Prod.snd (hstep.symm.trans (h.size hgot))⟩
  | true =>
    rcases hparse : k.parse (c.socketData.take c.nextPacketSize) c.eciesSession with ⟨fault | _, e⟩
    · obtain ⟨_, hthrows⟩ := h.threw hgot hparse
      cases hthrows.symm.trans hstep
    · exact .inr ⟨rfl, e, rfl, congrArg Prod.snd (hstep.symm.trans (h.done hgot hparse))⟩

/-! ## Steps in the frames -/

/-- A header is read with keys only; without them the step changes nothing. -/
theorem header_step (hkeyed : Keyed c) (hstate : c.state = .Header)
    (hstep : (reader env).step c = (.ok (), c')) : (c.eciesSession.ingressMac = none ∧ c' = c) ∨
      (c.eciesSession.ingressMac.isSome = true ∧ c'.state = .Body ∧
        c'.socketData = c.socketData.drop c.nextPacketSize) := by
  have hruns : (handleHeader env).wp (fun _ c' => (c.eciesSession.ingressMac = none ∧ c' = c) ∨
      (c.eciesSession.ingressMac.isSome = true ∧ c'.state = .Body ∧
        c'.socketData = c.socketData.drop c.nextPacketSize)) (fun _ _ => True) c := by
    simp only [handleHeader, wp_bind, wp_get, withSession, wp_onPart]
    cases hmac : c.eciesSession.ingressMac with
    | none =>
      have hrun : parseHeader env.crypto (c.socketData.take c.nextPacketSize) c.eciesSession =
          (.ok none, c.eciesSession) := by
        unfold parseHeader
        rw [hmac]
      apply wp_of_run hrun
      exact .inl ⟨rfl, rfl⟩
    | some mac =>
      unfold wp
      rcases hrun : parseHeader env.crypto (c.socketData.take c.nextPacketSize) c.eciesSession
        with ⟨fault | size, e⟩
      · trivial
      · cases size with
        | none =>
          -- the cipher is there with the MAC, so there is a size
          obtain ⟨aes, haes⟩ := Option.isSome_iff_exists.mp
            (hkeyed.paired.symm.trans (congrArg Option.isSome hmac))
          simp only [parseHeader, hmac, haes] at hrun
          split at hrun
          · cases hrun
          · split at hrun <;> cases hrun
        | some size => exact .inr ⟨rfl, rfl, rfl⟩
  have hstep' : handleHeader env c = (.ok (), c') := by
    rw [← hstep, step_of_state, hstate]
  exact @wp_ok _ _ _ (fun _ c' => (c.eciesSession.ingressMac = none ∧ c' = c) ∨
    (c.eciesSession.ingressMac.isSome = true ∧ c'.state = .Body ∧
      c'.socketData = c.socketData.drop c.nextPacketSize)) _ _ _ _ _ hstep' hruns

/-- The place in the stream stays the same. -/
structure SamePlace (c c' : Connection) : Prop where
  state : c'.state = c.state
  nextPacketSize : c'.nextPacketSize = c.nextPacketSize
  socketData : c'.socketData = c.socketData

instance : IsPreorder Connection SamePlace where
  refl _ := ⟨rfl, rfl, rfl⟩
  trans _ _ _ h h' := ⟨h'.state.trans h.state, h'.nextPacketSize.trans h.nextPacketSize,
    h'.socketData.trans h.socketData⟩

theorem laws_samePlace : Laws env SamePlace where
  aside h := ⟨h.state, h.nextPacketSize, h.socketData⟩
  session _ _ := ⟨rfl, rfl, rfl⟩

/-- Behind a body a header is waited for, whatever the body was. -/
structure AfterBody (c c' : Connection) : Prop where
  state : c'.state = .Header
  nextPacketSize : c'.nextPacketSize = 32
  shorter : c'.socketData.length ≤ c.socketData.length

theorem body_step (hkeyed : Keyed c) (hstate : c.state = .Body)
    (hstep : (reader env).step c = (.ok (), c')) : AfterBody c c' := by
  obtain ⟨mac, hmac⟩ := Option.isSome_iff_exists.mp (hkeyed.body hstate)
  obtain ⟨aes, haes⟩ := Option.isSome_iff_exists.mp (hkeyed.paired.symm.trans (congrArg Option.isSome hmac))
  have hruns : (handleBody env).wp (fun _ c' => AfterBody c c') (fun _ _ => True) c := by
    simp only [handleBody, wp_bind, wp_get, withSession, wp_onPart]
    rcases hrun : parseBody env.crypto (c.socketData.take c.nextPacketSize) c.eciesSession
      with ⟨fault | body, e⟩
    · unfold wp
      rw [hrun]
      trivial
    · apply wp_of_run hrun
      cases body with
      | none =>
        simp only [parseBody, hmac, haes] at hrun
        split at hrun
        · cases hrun
        · split at hrun <;> cases hrun
      | some body =>
        have hquiet {p : Action Unit} (hp : p.Keeps SamePlace) : p.wp (fun _ c' => AfterBody c c')
            (fun _ _ => True) { c with eciesSession := e, state := .Header, nextPacketSize := 32 } :=
          wp_mono (hp.wp _) (fun _ _ hsame => ⟨hsame.state, hsame.nextPacketSize, hsame.socketData ▸ Nat.le_refl _⟩)
            fun _ _ _ => trivial
        simp only [wp_bind, wp_modify]
        apply wp_ite
        · exact fun _ => hquiet (laws_samePlace.keeps_disconnect _)
        · intro _
          split
          · exact hquiet (laws_samePlace.keeps_disconnect _)
          · rename_i receiver msgCode _
            simp only [wp_bind]
            apply wp_mono ((laws_samePlace.keeps_orDisconnect
              (laws_samePlace.keeps_dispatch receiver msgCode (body.drop 1))).wp _)
            · intro _ c₁ hsame
              refine ⟨hsame.state, hsame.nextPacketSize, ?_⟩
              rw [List.length_drop, hsame.socketData]
              exact Nat.sub_le _ _
            · exact fun _ _ _ => trivial
  have hstep' : handleBody env c = (.ok (), c') := by
    rw [← hstep, step_of_state, hstate]
  exact @wp_ok _ _ _ (fun _ c' => AfterBody c c') _ _ _ _ _ hstep' hruns

/-! ## The loop -/

theorem keyed_step (hkeyed : Keyed c) (hstep : (reader env).step c = (.ok (), c')) :
    Keyed c' ∧ (c.eciesSession.ingressMac.isSome = true → c'.eciesSession.ingressMac.isSome = true) := by
  have hkeeps := (@laws_keepsKeys env).keeps_step.outcome c
  rw [hstep] at hkeeps
  exact ⟨hkeeps.keyed hkeyed, hkeeps.1.mac⟩

/-- A step does not change whether the loop goes on for ever. -/
theorem loopsForever_step (hkeyed : Keyed c) (hready : (reader env).ready c = true)
    (hstep : (reader env).step c = (.ok (), c')) : LoopsForever env c' ↔ LoopsForever env c := by
  have hlong : c.nextPacketSize ≤ c.socketData.length := of_decide_eq_true hready
  have hloops : LoopsForever env c = match c.state with
    | .Auth => Outruns (authPacket env) c
    | .Ack => Outruns (ackPacket env) c
    | .Header => c.eciesSession.ingressMac = none ∧ c.nextPacketSize ≤ c.socketData.length
    | .Body => False := rfl
  cases hstate : c.state with
  | Auth =>
    rw [hloops, hstate]
    rcases (reads_auth hstate).cases hstep with ⟨hgot, rfl⟩ | ⟨hgot, e, hparse, rfl⟩
    · have hsized : LoopsForever env ((authPacket env).sized c) = Outruns (authPacket env) ((authPacket env).sized c) := by
        simp only [LoopsForever, HandshakePacket.sized, hstate]
      rw [hsized, outruns_sized _ hgot hlong]
    · exact loopsForever_done _ hgot hlong hparse
  | Ack =>
    rw [hloops, hstate]
    rcases (reads_ack hstate).cases hstep with ⟨hgot, rfl⟩ | ⟨hgot, e, hparse, rfl⟩
    · have hsized : LoopsForever env ((ackPacket env).sized c) = Outruns (ackPacket env) ((ackPacket env).sized c) := by
        simp only [LoopsForever, HandshakePacket.sized, hstate]
      rw [hsized, outruns_sized _ hgot hlong]
    · exact loopsForever_done _ hgot hlong hparse
  | Header =>
    rcases header_step hkeyed hstate hstep with ⟨-, rfl⟩ | ⟨hmac, hbody, -⟩
    · rfl
    · rw [hloops, hstate]
      simp only [LoopsForever, hbody, false_iff, not_and]
      intro hnone
      rw [hnone] at hmac
      cases hmac
  | Body =>
    have hafter := body_step hkeyed hstate hstep
    have hmac := (keyed_step hkeyed hstep).2 (hkeyed.body hstate)
    rw [hloops, hstate]
    simp only [LoopsForever, hafter.state, iff_false, not_and]
    intro hnone
    rw [hnone] at hmac
    cases hmac

/-- A bound on the steps: two for the bytes of a frame, one for a packet of the handshake that
is yet to be read and another for its size. -/
def remaining (c : Connection) : Nat :=
  2 * c.socketData.length + match c.state with
    | .Auth => if c.eciesSession.gotEIP8Auth then 1 else 2
    | .Ack => if c.eciesSession.gotEIP8Ack then 1 else 2
    | .Header => 0
    | .Body => 1

/-- What holds in the loop behind its first step. -/
structure Progressing (env : Env) (c : Connection) : Prop where
  keyed : Keyed c
  ends : ¬LoopsForever env c
  header : c.state = .Header → c.nextPacketSize = 32

/-- Every step of such a loop goes on. -/
theorem progressing_step (h : Progressing env c) (hready : (reader env).ready c = true)
    (hstep : (reader env).step c = (.ok (), c')) :
    Progressing env c' ∧ remaining c' < remaining c := by
  have hlong : c.nextPacketSize ≤ c.socketData.length := of_decide_eq_true hready
  have hkeyed := (keyed_step h.keyed hstep).1
  have hends : ¬LoopsForever env c' := fun hloops => h.ends ((loopsForever_step h.keyed hready hstep).mp hloops)
  cases hstate : c.state with
  | Auth =>
    rcases (reads_auth hstate).cases hstep with ⟨hgot, rfl⟩ | ⟨hgot, e, -, rfl⟩
    · have hgot' : c.eciesSession.gotEIP8Auth = false := hgot
      refine ⟨⟨hkeyed, hends, fun hheader => (nomatch hstate.symm.trans hheader)⟩, ?_⟩
      simp only [remaining, HandshakePacket.sized, authPacket, hstate, hgot', if_true, Bool.false_eq_true, if_false]
      omega
    · have hgot' : c.eciesSession.gotEIP8Auth = true := hgot
      refine ⟨⟨hkeyed, hends, fun _ => rfl⟩, ?_⟩
      simp only [remaining, HandshakePacket.done, hstate, hgot', if_true, List.length_drop]
      omega
  | Ack =>
    rcases (reads_ack hstate).cases hstep with ⟨hgot, rfl⟩ | ⟨hgot, e, -, rfl⟩
    · have hgot' : c.eciesSession.gotEIP8Ack = false := hgot
      refine ⟨⟨hkeyed, hends, fun hheader => (nomatch hstate.symm.trans hheader)⟩, ?_⟩
      simp only [remaining, HandshakePacket.sized, ackPacket, hstate, hgot', if_true, Bool.false_eq_true, if_false]
      omega
    · have hgot' : c.eciesSession.gotEIP8Ack = true := hgot
      refine ⟨⟨hkeyed, hends, fun _ => rfl⟩, ?_⟩
      simp only [remaining, HandshakePacket.done, hstate, hgot', if_true, List.length_drop]
      omega
  | Header =>
    rcases header_step h.keyed hstate hstep with ⟨hnone, -⟩ | ⟨-, hbody, hdata⟩
    · -- without keys the loop would not end
      refine absurd ?_ h.ends
      unfold LoopsForever
      rw [hstate]
      exact ⟨hnone, hlong⟩
    · have hsize := h.header hstate
      refine ⟨⟨hkeyed, hends, fun hheader => (nomatch hbody.symm.trans hheader)⟩, ?_⟩
      simp only [remaining, hbody, hstate, hdata, List.length_drop]
      omega
  | Body =>
    have hafter := body_step h.keyed hstate hstep
    refine ⟨⟨hkeyed, hends, fun _ => hafter.nextPacketSize⟩, ?_⟩
    have hshorter := hafter.shorter
    simp only [remaining, hafter.state, hstate]
    omega

/-- Any loop that ends is such after one step. -/
theorem progressing_of_first (hkeyed : Keyed c) (hends : ¬LoopsForever env c)
    (hready : (reader env).ready c = true) (hstep : (reader env).step c = (.ok (), c')) :
    Progressing env c' ∧ remaining c' < 2 * c.socketData.length + 2 := by
  have hends' : ¬LoopsForever env c' := fun hloops => hends ((loopsForever_step hkeyed hready hstep).mp hloops)
  have hbound (hheader : c.state ≠ .Header) :
      Progressing env c' ∧ remaining c' < 2 * c.socketData.length + 2 := by
    obtain ⟨hnext, hlt⟩ := progressing_step ⟨hkeyed, hends, fun h => absurd h hheader⟩ hready hstep
    have hle : remaining c ≤ 2 * c.socketData.length + 2 := by
      unfold remaining
      apply Nat.add_le_add_left
      split
      · split <;> decide
      · split <;> decide
      · decide
      · decide
    exact ⟨hnext, Nat.lt_of_lt_of_le hlt hle⟩
  cases hstate : c.state with
  | Header =>
    rcases header_step hkeyed hstate hstep with ⟨hnone, -⟩ | ⟨-, hbody, hdata⟩
    · refine absurd ?_ hends
      unfold LoopsForever
      rw [hstate]
      exact ⟨hnone, of_decide_eq_true hready⟩
    · refine ⟨⟨(keyed_step hkeyed hstep).1, hends', fun h => (nomatch hbody.symm.trans h)⟩, ?_⟩
      simp only [remaining, hbody, hdata, List.length_drop]
      omega
  | Auth => exact hbound (by rw [hstate]; decide)
  | Ack => exact hbound (by rw [hstate]; decide)
  | Body => exact hbound (by rw [hstate]; decide)

theorem halts (hkeyed : Keyed c) (hends : ¬LoopsForever env c) : (reader env).Halts c := by
  cases hready : (reader env).ready c with
  | false => exact .waiting hready
  | true =>
    rcases hrun : (reader env).step c with ⟨fault | _, c'⟩
    · exact .threw hready hrun
    · exact .stepped hready hrun (StreamReader.halts_of_measure (Progressing env) remaining
        (fun _ _ h hready hstep => progressing_step h hready hstep)
        (progressing_of_first hkeyed hends hready hrun).1)

/-- A packet that is read is accepted there, and a header without keys is passed over. -/
theorem step_ok_of_loopsForever (h : LoopsForever env c) :
    ∃ c', (reader env).step c = (.ok (), c') := by
  have hpacket {k : HandshakePacket} (hreads : k.Reads (reader env).step c) (h : Outruns k c) :
      ∃ c', (reader env).step c = (.ok (), c') := by
    cases hgot : k.got c.eciesSession with
    | false => exact ⟨_, hreads.size hgot⟩
    | true =>
      obtain ⟨-, -, e, hparse, -⟩ := h
      rw [if_pos hgot, k.mark_of_got _ hgot] at hparse
      exact ⟨_, hreads.done hgot hparse⟩
  unfold LoopsForever at h
  split at h
  · next hstate => exact hpacket (reads_auth hstate) h
  · next hstate => exact hpacket (reads_ack hstate) h
  · next hstate =>
    refine ⟨c, ?_⟩
    rw [step_of_state, hstate]
    have hrun : withSession (parseHeader env.crypto (c.socketData.take c.nextPacketSize)) c = (.ok none, c) := by
      unfold withSession onPart parseHeader
      rw [h.1]
    exact (bind_of_ok (get_run c)).trans (bind_of_ok hrun)
  · exact h.elim

theorem not_halts (hkeyed : Keyed c) (h : LoopsForever env c) : ¬(reader env).Halts c := by
  intro hhalts
  induction hhalts with
  | @waiting c hwaits =>
    have hshort : ¬c.nextPacketSize ≤ c.socketData.length := of_decide_eq_false hwaits
    unfold LoopsForever at h
    split at h
    · exact hshort h.1
    · exact hshort h.1
    · exact hshort h.2
    · exact h
  | threw _ hstep =>
    obtain ⟨_, hok⟩ := step_ok_of_loopsForever h
    cases hok.symm.trans hstep
  | stepped hready hstep _ ih =>
    exact ih (keyed_step hkeyed hstep).1 ((loopsForever_step hkeyed hready hstep).mpr h)

/-- The bytes are behind those that were there. -/
def received (c : Connection) (data : Bytes) : Connection := { c with socketData := c.socketData ++ data }

/-- `_onSocketData(data)` returns: the connection is closed, or the loop comes to an end. -/
def ReceiveEnds (env : Env) (c : Connection) (data : Bytes) : Prop :=
  c.closed = true ∨ (reader env).Halts (c.received data)

/-- In every state that a connection can come to, the receive loop ends unless it comes to a
header for which there are no keys. -/
theorem receive_ends_iff (env : Env) {c : Connection} (hstart : Started env c) (inputs : List Input) (data : Bytes) :
    ReceiveEnds env (run env c inputs) data ↔
      (run env c inputs).closed = true ∨ ¬LoopsForever env ((run env c inputs).received data) := by
  have hkeyed : Keyed ((run env c inputs).received data) :=
    ⟨(run_keyed hstart inputs).paired, (run_keyed hstart inputs).body⟩
  exact or_congr_right ⟨fun hhalts hloops => not_halts hkeyed hloops hhalts, halts hkeyed⟩

/-! ## A listener and its first packet -/

/-- A listener that nothing has happened to. -/
def listener : Connection := created Sample.env (Sample.options .inbound) [1] none [2] [3]

theorem started_listener : Started Sample.env listener := .inbound _ _ _ _ rfl

/-- The packet that a dialler sends first. -/
def authBytes : Bytes :=
  (new Sample.env (Sample.options .outbound) [4] (some (Sample.digest [1] ++ Sample.digest [1])) [6] [7]
    ⟨[8], List.replicate 16 9⟩ (List.replicate 100 0)).2.written

/-- The packet alone. -/
theorem receive_ends_auth : ReceiveEnds Sample.env (run Sample.env listener []) authBytes :=
  (receive_ends_iff Sample.env started_listener [] authBytes).mpr (.inr fun hloops => by
    have hshort : ¬listener.nextPacketSize ≤ (listener.received authBytes).socketData.length := by decide +kernel
    exact hshort hloops.1)

/-- A listener that is sent an accepted packet, with more than a header behind it. -/
theorem loopsForever_listener {data : Bytes} {size : Nat} (hlong : 307 ≤ data.length)
    (hsize : bytesToNat (data.take 2) + 2 = size) (hfollow : size + 32 ≤ data.length)
    (haccepted : (parseAuthEIP8 Sample.env.crypto (data.take size)
      { listener.eciesSession with gotEIP8Auth := true }).1 = .ok ())
    (hkeyless : (parseAuthEIP8 Sample.env.crypto (data.take size)
      { listener.eciesSession with gotEIP8Auth := true }).2.ingressMac = none) :
    LoopsForever Sample.env (listener.received data) := by
  subst hsize
  exact ⟨hlong, hfollow, _, Prod.ext haccepted rfl, hkeyless⟩

/-- The packet with the bytes of a header behind it, whatever they are. -/
theorem receive_loops_for_ever :
    ¬ReceiveEnds Sample.env (run Sample.env listener []) (authBytes ++ List.replicate 32 0) := by
  have hloops : LoopsForever Sample.env (listener.received (authBytes ++ List.replicate 32 0)) :=
    @loopsForever_listener _ 287 (by decide +kernel) (by decide +kernel) (by decide +kernel)
      (by decide +kernel) (by decide +kernel)
  exact fun hends => hends.elim Bool.false_ne_true
    (not_halts ⟨rfl, fun hbody => RLPxConnectionState.noConfusion hbody⟩ hloops)

end Connection
end Rlpx
