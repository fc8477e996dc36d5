-- SUMMARY: The handshake of two connections over a reliable stream: when both come to the frames with the same ciphers and MACs.
import TsEthereum.P2p.Onward
import TsEthereum.P2p.Stages

/-!
# The handshake

A dialler and a listener, with the bytes that each has written and the other has not yet
received. Bytes arrive in chunks of any size, and callbacks of the next tick run at any
time.
-/

open List Nat

namespace Rlpx

open Program

/-! ## Two parties -/

open Connection

structure Keys where
  privateKey : Bytes
  nonce : Bytes
  ephemeralPrivateKey : Bytes

def Keys.nodeId (c : Crypto) (k : Keys) : Bytes := pk2id c (c.getPublicKey k.privateKey)

structure Keys.Ok (Valid : Bytes → Prop) (k : Keys) : Prop where
  privateKey : Valid k.privateKey
  ephemeralPrivateKey : Valid k.ephemeralPrivateKey
  nonce : k.nonce.length = 32

/-- A dialler and a listener, with what the dialler draws for its first packet. -/
structure Setting where
  dialler : Options
  listener : Options
  diallerKeys : Keys
  listenerKeys : Keys
  draw : Draw
  pad : Bytes

namespace Setting

/-- Both sides go by the node ids of their keys. -/
structure Ok (env : Env) (Valid : Bytes → Prop) (p : Setting) : Prop where
  correct : env.crypto.Correct Valid
  outbound : p.dialler.direction = .outbound
  inbound : p.listener.direction = .inbound
  diallerId : p.dialler.nodeId = p.diallerKeys.nodeId env.crypto
  listenerId : p.listener.nodeId = p.listenerKeys.nodeId env.crypto
  diallerKeys : p.diallerKeys.Ok Valid
  listenerKeys : p.listenerKeys.Ok Valid
  draw : p.draw.Ok Valid
  pad : PadOk p.pad

def initiator (env : Env) (p : Setting) : Connection :=
  (Connection.new env p.dialler p.diallerKeys.privateKey
    (some (p.listenerKeys.nodeId env.crypto)) p.diallerKeys.nonce
    p.diallerKeys.ephemeralPrivateKey p.draw p.pad).2

def responder (env : Env) (p : Setting) : Connection :=
  created env p.listener p.listenerKeys.privateKey none p.listenerKeys.nonce
    p.listenerKeys.ephemeralPrivateKey

end Setting

/-- Two connections, with how many bytes of each the other one has received. -/
structure Network where
  initiator : Connection
  responder : Connection
  toResponder : Nat
  toInitiator : Nat

namespace Network

/-- A chunk of at most so many bytes arrives, or a callback of the next tick runs. -/
inductive Move where
  | toResponder (n : Nat)
  | toInitiator (n : Nat)
  | tickInitiator (draw : Draw) (pad : Bytes)
  | tickResponder (draw : Draw) (pad : Bytes)

def Move.Ok (Valid : Bytes → Prop) : Move → Prop
  | .toResponder _ => True
  | .toInitiator _ => True
  | .tickInitiator draw pad => draw.Ok Valid ∧ PadOk pad
  | .tickResponder draw pad => draw.Ok Valid ∧ PadOk pad

/-- The next chunk of what was written. -/
def chunk (written : Bytes) (received n : Nat) : Bytes := (written.drop received).take n

def step (env : Env) (s : Network) : Move → Network
  | .toResponder n =>
    let bytes := chunk s.initiator.written s.toResponder n
    { s with
      responder := respond env s.responder (.data bytes)
      toResponder := s.toResponder + bytes.length }
  | .toInitiator n =>
    let bytes := chunk s.responder.written s.toInitiator n
    { s with
      initiator := respond env s.initiator (.data bytes)
      toInitiator := s.toInitiator + bytes.length }
  | .tickInitiator draw pad => { s with initiator := respond env s.initiator (.tick draw pad) }
  | .tickResponder draw pad => { s with responder := respond env s.responder (.tick draw pad) }

def start (env : Env) (p : Setting) : Network := ⟨p.initiator env, p.responder env, 0, 0⟩

def run (env : Env) (s : Network) (moves : List Move) : Network := moves.foldl (step env) s

/-- Everything was delivered and no callback waits. -/
structure Settled (s : Network) : Prop where
  toResponder : s.toResponder = s.initiator.written.length
  toInitiator : s.toInitiator = s.responder.written.length
  initiatorTick : s.initiator.nextTick = []
  responderTick : s.responder.nextTick = []

/-- Both are ready for frames, each writes with what the other reads with, and each knows the
other's public key. -/
structure Agreed (env : Env) (p : Setting) (i r : Connection) : Prop where
  initiatorState : i.state = .Header
  responderState : r.state = .Header
  paired : ECIES.Paired i.eciesSession r.eciesSession
  initiatorKnows :
    i.eciesSession.remotePublicKey = some (env.crypto.getPublicKey p.listenerKeys.privateKey)
  responderKnows :
    r.eciesSession.remotePublicKey = some (env.crypto.getPublicKey p.diallerKeys.privateKey)

/-- Both have come through states that agree: the initiator while it was reading a chunk, with
what is left of the chunk in its buffer, the responder before it sent its HELLO. -/
def Connected (env : Env) (p : Setting) (s : Network) : Prop :=
  ∃ i r, Agreed env p i r ∧
    (∃ fuel later, s.initiator =
      Connection.run env (orDisconnect env ((reader env).drain fuel) i).2 later) ∧
    ∃ later, s.responder = Connection.run env (sendHello env r).2 later

/-- Whatever the chunks and the order, both are connected when there is nothing left to do. -/
def Agrees (env : Env) (Valid : Bytes → Prop) (p : Setting) : Prop :=
  ∀ moves : List Move, (∀ m ∈ moves, m.Ok Valid) →
    Settled (run env (start env p) moves) → Connected env p (run env (start env p) moves)

/-! ## Chunks -/

theorem take_chunk (written : Bytes) (k n : Nat) :
    written.take k ++ chunk written k n = written.take (k + (chunk written k n).length) := by
  rw [take_add]
  unfold chunk
  rw [length_take, take_eq_take_min]
  simp

theorem chunk_length_le (written : Bytes) {k : Nat} (n : Nat) (hk : k ≤ written.length) :
    k + (chunk written k n).length ≤ written.length := by
  unfold chunk
  rw [length_take, length_drop]
  omega

theorem chunk_all (written : Bytes) (n : Nat) : chunk written written.length n = [] := by
  rw [chunk, drop_length, take_nil]

/-! ## The start -/

end Network

namespace Setting

variable {env : Env} {Valid : Bytes → Prop} {p : Setting}

/-- The dialler before its constructor sends the packet. -/
def dialled (env : Env) (p : Setting) : Connection :=
  created env p.dialler p.diallerKeys.privateKey (some (p.listenerKeys.nodeId env.crypto))
    p.diallerKeys.nonce p.diallerKeys.ephemeralPrivateKey

theorem Ok.ready_dialled (h : p.Ok env Valid) :
    (p.dialled env).eciesSession.Ready env.crypto Valid where
  privateKey := h.diallerKeys.privateKey
  publicKey := (congrArg id2pk h.diallerId).trans
    (h.correct.pk2id_publicKey h.diallerKeys.privateKey).2
  ephemeralPrivateKey := h.diallerKeys.ephemeralPrivateKey
  ephemeralPublicKey := rfl
  nonce := h.diallerKeys.nonce

theorem Ok.ready_responder (h : p.Ok env Valid) :
    (p.responder env).eciesSession.Ready env.crypto Valid where
  privateKey := h.listenerKeys.privateKey
  publicKey := (congrArg id2pk h.listenerId).trans
    (h.correct.pk2id_publicKey h.listenerKeys.privateKey).2
  ephemeralPrivateKey := h.listenerKeys.ephemeralPrivateKey
  ephemeralPublicKey := rfl
  nonce := h.listenerKeys.nonce

/-- The dialler knows the key of the listener that it dials. -/
theorem Ok.dialled_key (h : p.Ok env Valid) : (p.dialled env).eciesSession.remotePublicKey =
    some (env.crypto.getPublicKey p.listenerKeys.privateKey) :=
  congrArg some (h.correct.pk2id_publicKey h.listenerKeys.privateKey).2

theorem Ok.initiator_eq (h : p.Ok env Valid) {packet : Bytes}
    (hcreate : (if p.dialler.useEIP8 then ECIES.createAuthEIP8 env.crypto p.draw p.pad
      else ECIES.createAuthNonEIP8 env.crypto p.draw) (p.dialled env).eciesSession =
        (.ok (some packet), { (p.dialled env).eciesSession with initMsg := some packet })) :
    p.initiator env = sentAuth (p.dialled env) packet := by
  have hsend : sendAuth env p.draw p.pad (p.dialled env) =
      (.ok (), sentAuth (p.dialled env) packet) := sendAuth_eq rfl hcreate
  simp only [initiator, Connection.new, h.outbound, Option.isSome_some, and_self, if_true]
  exact congrArg Prod.snd hsend

theorem stageResponder (env : Env) (p : Setting) :
    Stage env (p.responder env) 307 (fun e => { e with gotEIP8Auth := true })
      (ECIES.parseAuthEIP8 env.crypto) .sendAck :=
  stage_auth rfl rfl rfl rfl rfl

theorem stageInitiator (env : Env) (p : Setting) (auth : Bytes) :
    Stage env (sentAuth (p.dialled env) auth) 210 (fun e => { e with gotEIP8Ack := true })
      (ECIES.parseAckEIP8 env.crypto) .sendHello :=
  stage_ack rfl rfl rfl rfl rfl

/-- The listener's session, once it has parsed the packet. -/
def authenticated (env : Env) (p : Setting) (auth : Bytes) : ECIES :=
  ECIES.afterAuth env.crypto (p.dialled env).eciesSession auth
    { (p.responder env).eciesSession with gotEIP8Auth := true }

/-- The first packet is out, and the listener can parse it. -/
structure Begun (env : Env) (p : Setting) (auth : Bytes) : Prop where
  initiator : p.initiator env = sentAuth (p.dialled env) auth
  packet : EIP8Packet 307 auth
  parse : ECIES.parseAuthEIP8 env.crypto auth
    { (p.responder env).eciesSession with gotEIP8Auth := true } = (.ok (), p.authenticated env auth)

theorem Ok.begun (h : p.Ok env Valid) (heip8 : p.dialler.useEIP8 = true) :
    ∃ auth, Begun env p auth := by
  obtain ⟨auth, hcreate, hpacket, hparse⟩ := ECIES.auth_spec h.correct h.ready_dialled
    h.listenerKeys.privateKey h.dialled_key h.draw h.pad
  refine ⟨auth, h.initiator_eq ?_, hpacket, ?_⟩
  · simp only [heip8, if_true, hcreate]
  · have hready := h.ready_responder
    exact hparse _ ⟨hready.1, hready.2, hready.3, hready.4, hready.5⟩ rfl rfl

/-- The second packet is out: the initiator parses it to a session that matches. -/
structure Answered (env : Env) (p : Setting) (auth ack : Bytes) (r : Connection) : Prop where
  state : r.state = .Header
  written : r.written = ack
  parse : ∃ e, ECIES.parseAckEIP8 env.crypto ack
      { (sentAuth (p.dialled env) auth).eciesSession with gotEIP8Ack := true } = (.ok (), e) ∧
    ECIES.Paired e r.eciesSession ∧
    e.remotePublicKey = some (env.crypto.getPublicKey p.listenerKeys.privateKey)
  known :
    r.eciesSession.remotePublicKey = some (env.crypto.getPublicKey p.diallerKeys.privateKey)

/-- Whatever the listener does next, its answer stays what it has written first. -/
theorem Answered.prefix_written {auth ack : Bytes} {r : Connection}
    (h : p.Answered env auth ack r) (later : List Input) :
    ack <+: (Connection.run env (sendHello env r).2 later).written := by
  have hhello : Onward r (sendHello env r).2 := laws_onward.outgoing.keeps_sendHello.outcome r
  rw [← h.written]
  exact hhello.written.trans (laws_onward.run _ later).written

theorem setupFrame_remotePublicKey (c : Crypto) (data : Bytes) (incoming : Bool) (e : ECIES) :
    (e.setupFrame c data incoming).remotePublicKey = e.remotePublicKey := by
  unfold ECIES.setupFrame
  split <;> rfl

theorem Ok.answered (h : p.Ok env Valid) (auth : Bytes) {draw : Draw} {pad : Bytes}
    (hdraw : draw.Ok Valid) (hpad : PadOk pad) :
    ∃ ack r, EIP8Packet 210 ack ∧ Answered env p auth ack r ∧
      respond env (handshaken (p.responder env) (p.authenticated env auth) .sendAck [])
        (.tick draw pad) = (sendHello env r).2 := by
  have hready := h.ready_responder
  have hmarked : ECIES.Ready env.crypto Valid
      { (p.responder env).eciesSession with gotEIP8Auth := true } :=
    ⟨hready.1, hready.2, hready.3, hready.4, hready.5⟩
  have hparsed : (p.authenticated env auth).Ready env.crypto Valid :=
    ⟨hready.1, hready.2, hready.3, hready.4, hready.5⟩
  have hkey : (p.authenticated env auth).remotePublicKey =
      some (env.crypto.getPublicKey p.diallerKeys.privateKey) :=
    congrArg some h.ready_dialled.publicKey
  obtain ⟨ack, hcreate, hpacket, hparse⟩ := ECIES.ack_spec h.correct hparsed
    h.diallerKeys.privateKey hkey rfl hdraw hpad
  have hsend := sendAck_eq (c := { handshaken (p.responder env) (p.authenticated env auth)
    .sendAck [] with nextTick := [] }) rfl rfl hcreate
  have hdialled := h.ready_dialled
  have hwaiting : ECIES.Ready env.crypto Valid
      { (sentAuth (p.dialled env) auth).eciesSession with gotEIP8Ack := true } :=
    ⟨hdialled.1, hdialled.2, hdialled.3, hdialled.4, hdialled.5⟩
  refine ⟨ack, _, hpacket, ⟨rfl, rfl, ⟨_, hparse _ hwaiting rfl rfl, ?_, ?_⟩, ?_⟩,
    congrArg Prod.snd hsend⟩
  · exact ECIES.setupFrame_paired h.correct hwaiting hmarked rfl
  · exact (setupFrame_remotePublicKey _ _ _ _).trans h.dialled_key
  · exact (setupFrame_remotePublicKey _ _ _ _).trans hkey

end Setting

namespace Network

variable {env : Env} {Valid : Bytes → Prop} {p : Setting}

/-! ## The phases of a handshake -/

/-- The listener has received `k` bytes of what the dialler has written, and takes them for a
part of a packet. -/
def listening (env : Env) (p : Setting) (auth : Bytes) {packet : Bytes}
    (hp : EIP8Packet 307 packet) (k : Nat) : Network :=
  ⟨sentAuth (p.dialled env) auth, (p.stageResponder env).waiting (by decide) hp (auth.take k), k, 0⟩

/-- How far the two have come. -/
inductive Phase (env : Env) (p : Setting) (auth : Bytes) (hauth : EIP8Packet 307 auth) :
    Network → Prop
  /-- The listener has a part of the first packet. -/
  | reading (k : Nat) : k < auth.length → Phase env p auth hauth (listening env p auth hauth k)
  /-- It has parsed the packet, and will answer in the next tick. -/
  | read : Phase env p auth hauth ⟨sentAuth (p.dialled env) auth,
      handshaken (p.responder env) (p.authenticated env auth) .sendAck [], auth.length, 0⟩
  /-- It has answered, and the dialler has a part of the answer. -/
  | answered {ack : Bytes} {r : Connection} (hack : EIP8Packet 210 ack)
    (later : List Input) (k toResponder : Nat) : p.Answered env auth ack r → k < ack.length →
    Phase env p auth hauth ⟨(p.stageInitiator env auth).waiting (by decide) hack (ack.take k),
      Connection.run env (sendHello env r).2 later, toResponder, k⟩
  | connected {s : Network} : Connected env p s → Phase env p auth hauth s

theorem respond_tick_nil {c : Connection} (h : c.nextTick = []) (draw : Draw) (pad : Bytes) :
    respond env c (.tick draw pad) = c := by
  simp only [respond, h]

theorem respond_run {c c' : Connection} {later : List Input}
    (h : c' = Connection.run env c later) (input : Input) :
    respond env c' input = Connection.run env c (later ++ [input]) := by
  rw [h]
  exact (foldl_concat ..).symm

variable {s : Network}

/-- Whatever happens to two parties that have agreed, they have agreed. -/
theorem Connected.step (h : Connected env p s) (m : Move) :
    Connected env p (step env s m) := by
  obtain ⟨i, r, hagreed, ⟨fuel, later, hi⟩, later', hr⟩ := h
  cases m with
  | toResponder n =>
    have hr' := respond_run hr (.data (chunk s.initiator.written s.toResponder n))
    exact ⟨i, r, hagreed, ⟨fuel, later, hi⟩, _, hr'⟩
  | toInitiator n =>
    have hi' := respond_run hi (.data (chunk s.responder.written s.toInitiator n))
    exact ⟨i, r, hagreed, ⟨fuel, _, hi'⟩, later', hr⟩
  | tickInitiator draw pad =>
    exact ⟨i, r, hagreed, ⟨fuel, _, respond_run hi (.tick draw pad)⟩, later', hr⟩
  | tickResponder draw pad =>
    exact ⟨i, r, hagreed, ⟨fuel, later, hi⟩, _, respond_run hr (.tick draw pad)⟩

variable {auth : Bytes} {hauth : EIP8Packet 307 auth}

variable {packet : Bytes} {k : Nat}

/-- As long as the packet is not complete, the listener only collects its bytes. -/
theorem step_listening (env : Env) (p : Setting) (hp : EIP8Packet 307 packet)
    (hinitial : auth <+: packet) (hk : k ≤ auth.length) (m : Move)
    (hpart : ∀ n, m = .toResponder n → k + (chunk auth k n).length < packet.length) :
    ∃ k', k ≤ k' ∧ k' ≤ auth.length ∧
      (k < packet.length → k' < packet.length) ∧
      step env (listening env p auth hp k) m = listening env p auth hp k' := by
  have hsilent := (p.stageResponder env).waiting_nextTick (by decide) hp (auth.take k)
  cases m with
  | toResponder n =>
    have htake := take_chunk auth k n
    have hle := chunk_length_le auth n hk
    have hlt := hpart n rfl
    refine ⟨_, Nat.le_add_right k _, hle, fun _ => hlt, ?_⟩
    simp only [step, listening]
    change Network.mk _ (respond env _ (.data (chunk auth k n))) (k + (chunk auth k n).length) 0 = _
    rw [Stage.respond_part _ _ _ (htake ▸ ( take_prefix _ _).trans hinitial)
      (by rw [htake, length_take_of_le hle]; exact hlt), htake]
  | toInitiator n =>
    have hnothing : chunk ((p.stageResponder env).waiting (by decide) hp (auth.take k)).written
        0 n = [] := by
      rw [Stage.waiting_written]
      exact take_nil
    refine ⟨k, Nat.le_refl k, hk, id, ?_⟩
    simp only [step, listening, hnothing]
    rw [respond_nothing (c := sentAuth (p.dialled env) auth) (zero_lt_succ _)]
    rfl
  | tickInitiator draw pad =>
    refine ⟨k, Nat.le_refl k, hk, id, ?_⟩
    simp only [step, listening]
    rw [respond_tick_nil (c := sentAuth (p.dialled env) auth) rfl]
  | tickResponder draw pad =>
    refine ⟨k, Nat.le_refl k, hk, id, ?_⟩
    simp only [step, listening]
    rw [respond_tick_nil hsilent]

/-- The chunk with the last byte of the packet brings the listener through it. -/
theorem step_listening_last (hbegun : p.Begun env auth) {n : Nat}
    (hall : k + (chunk auth k n).length = auth.length) :
    step env (listening env p auth hauth k) (.toResponder n) = ⟨sentAuth (p.dialled env) auth,
      handshaken (p.responder env) (p.authenticated env auth) .sendAck [], auth.length, 0⟩ := by
  have hwhole : auth.take k ++ chunk auth k n = auth ++ [] := by
    rw [take_chunk, hall, take_length, append_nil]
  obtain ⟨fuel, hrun⟩ :=
    (p.stageResponder env).respond_whole (by decide) hauth hwhole hbegun.parse
  have hwait : (reader env).ready
      (handshaken (p.responder env) (p.authenticated env auth) .sendAck []) = false := rfl
  simp only [step, listening]
  change Network.mk _ (respond env _ (.data (chunk auth k n))) (k + (chunk auth k n).length) 0 = _
  rw [hrun, orDisconnect_ok (StreamReader.drain_waiting hwait), hall]

/-- The listener reads the first packet. -/
theorem step_reading (hbegun : p.Begun env auth) (hk : k < auth.length) (m : Move) :
    Phase env p auth hauth (step env (listening env p auth hauth k) m) := by
  by_cases hlast : ∃ n, m = .toResponder n ∧ k + (chunk auth k n).length = auth.length
  · obtain ⟨n, rfl, hall⟩ := hlast
    rw [step_listening_last hbegun hall]
    exact .read
  · have hpart : ∀ n, m = .toResponder n → k + (chunk auth k n).length < auth.length :=
      fun n hm => Nat.lt_of_le_of_ne (chunk_length_le auth n (Nat.le_of_lt hk))
        fun hall => hlast ⟨n, hm, hall⟩
    obtain ⟨k', -, -, hlt, hstep⟩ :=
      step_listening env p hauth (prefix_refl auth) (Nat.le_of_lt hk) m hpart
    rw [hstep]
    exact .reading k' (hlt hk)

/-- The listener answers in the next tick. -/
theorem step_read (hok : p.Ok env Valid) {m : Move} (hm : m.Ok Valid) :
    Phase env p auth hauth (step env ⟨sentAuth (p.dialled env) auth,
      handshaken (p.responder env) (p.authenticated env auth) .sendAck [], auth.length, 0⟩ m) := by
  cases m with
  | toResponder n =>
    have hnothing : chunk (sentAuth (p.dialled env) auth).written auth.length n = [] :=
      chunk_all auth n
    simp only [step, hnothing]
    rw [respond_nothing (c := handshaken (p.responder env) (p.authenticated env auth) .sendAck [])
      (zero_lt_succ _)]
    exact .read
  | toInitiator n =>
    have hnothing : chunk (handshaken (p.responder env) (p.authenticated env auth)
        .sendAck []).written 0 n = [] := take_nil
    simp only [step, hnothing]
    rw [respond_nothing (c := sentAuth (p.dialled env) auth) (zero_lt_succ _)]
    exact .read
  | tickInitiator draw pad =>
    simp only [step]
    rw [respond_tick_nil (c := sentAuth (p.dialled env) auth) rfl]
    exact .read
  | tickResponder draw pad =>
    obtain ⟨ack, r, hack, hanswered, hrun⟩ := hok.answered auth hm.1 hm.2
    simp only [step, hrun]
    have hphase : Phase env p auth hauth ⟨_, (sendHello env r).2, auth.length, 0⟩ :=
      .answered hack [] 0 auth.length hanswered (Nat.lt_of_lt_of_le (by decide) hack.long)
    rw [take_zero, Stage.waiting_nil _ _ _ rfl] at hphase
    exact hphase

/-- The dialler reads the answer, and may get more than that. -/
theorem step_answered {ack : Bytes} {r : Connection} (hack : EIP8Packet 210 ack)
    (later : List Input) (toResponder : Nat) (h : p.Answered env auth ack r) (hk : k < ack.length)
    (m : Move) :
    Phase env p auth hauth (step env
      ⟨(p.stageInitiator env auth).waiting (by decide) hack (ack.take k),
        Connection.run env (sendHello env r).2 later, toResponder, k⟩ m) := by
  cases m with
  | toResponder n =>
    simp only [step]
    rw [respond_run rfl]
    exact .answered hack _ k _ h hk
  | toInitiator n =>
    obtain ⟨extra, hwritten⟩ := h.prefix_written later
    simp only [step, ← hwritten]
    have htake := take_chunk (ack ++ extra) k n
    rw [take_append_of_le_length (Nat.le_of_lt hk)] at htake
    generalize chunk (ack ++ extra) k n = bytes at htake ⊢
    cases Nat.lt_or_ge (k + bytes.length) ack.length with
    | inl hlt =>
      rw [take_append_of_le_length (Nat.le_of_lt hlt)] at htake
      rw [Stage.respond_part _ _ _ (htake ▸ take_prefix _ _)
        (by rw [htake, length_take_of_le (Nat.le_of_lt hlt)]; exact hlt), htake]
      exact .answered hack later _ toResponder h hlt
    | inr hge =>
      -- the chunk has the rest of the answer, and some of what comes after it
      obtain ⟨e, hparse, hpaired, hknows⟩ := h.parse
      rw [take_append, take_of_length_le hge] at htake
      obtain ⟨fuel, hrun⟩ :=
        (p.stageInitiator env auth).respond_whole (by decide) hack htake hparse
      exact .connected ⟨_, r, ⟨rfl, h.state, hpaired, hknows, h.known⟩, ⟨fuel, [], hrun⟩, later, rfl⟩
  | tickInitiator draw pad =>
    have hsilent := (p.stageInitiator env auth).waiting_nextTick (by decide) hack (ack.take k)
    simp only [step]
    rw [respond_tick_nil hsilent]
    exact .answered hack later k toResponder h hk
  | tickResponder draw pad =>
    simp only [step]
    rw [respond_run rfl]
    exact .answered hack _ k toResponder h hk

theorem Phase.step (hok : p.Ok env Valid) (hbegun : p.Begun env auth) (h : Phase env p auth hauth s)
    {m : Move} (hm : m.Ok Valid) :
    Phase env p auth hauth (step env s m) := by
  cases h with
  | reading k hk => exact step_reading hbegun hk m
  | read => exact step_read hok hm
  | answered hack later k toResponder hanswered hk =>
    exact step_answered hack later toResponder hanswered hk m
  | connected hconnected => exact .connected (hconnected.step m)

theorem Phase.run {s : Network} (hok : p.Ok env Valid) (hbegun : p.Begun env auth)
    (h : Phase env p auth hauth s) {moves : List Move} (hmoves : ∀ m ∈ moves, m.Ok Valid) :
    Phase env p auth hauth (run env s moves) := by
  induction moves generalizing s with
  | nil => exact h
  | cons m moves ih =>
    exact ih (h.step hok hbegun (hmoves m mem_cons_self))
      fun m' hm' => hmoves m' (mem_cons_of_mem m hm')

/-- Nothing is left to do only where both are connected. -/
theorem Phase.connected_of_settled (h : Phase env p auth hauth s) (hsettled : Settled s) :
    Connected env p s := by
  cases h with
  | reading k hk => exact absurd hsettled.toResponder (Nat.ne_of_lt hk)
  | read => exact absurd hsettled.responderTick (cons_ne_nil _ _)
  | answered hack later k toResponder h hk =>
    have hlong := h.prefix_written later |>.length_le
    exact absurd hsettled.toInitiator (Nat.ne_of_lt (Nat.lt_of_lt_of_le hk hlong))
  | connected hconnected => exact hconnected

/-! ## Without EIP-8 -/

/-- The plain packet is too short for the length that the listener reads off its first bytes. -/
theorem plain_length {tail : Bytes} (hpos : 0 < tail.length) (hlen : tail.length ≤ 306) :
    ∃ packet, 4 :: tail <+: packet ∧ (4 :: tail).length < packet.length ∧
      EIP8Packet 307 packet := by
  obtain ⟨b, rest, rfl⟩ := exists_cons_of_length_pos hpos
  have hsize : bytesToNat [4, b] = 1024 + b.toNat := by simp [bytesToNat]
  let packet := 4 :: b :: rest ++ List.replicate (1026 + b.toNat - (4 :: b :: rest).length) 0
  simp only [length_cons] at hlen
  have hlength : packet.length = 1026 + b.toNat := by
    simp only [packet, length_append, length_cons, length_replicate]
    omega
  refine ⟨packet, prefix_append _ _, ?_, ?_, ?_, ?_⟩
  · rw [hlength]
    simp only [length_cons]
    omega
  · change bytesToInt [4, b] = _
    have := b.toNat_lt
    rw [hlength]
    exact bytesToInt_of_lt (hsize.trans (by omega)) (by omega)
  · omega
  · omega

/-- The listener never gets what it waits for. -/
theorem run_listening (env : Env) (p : Setting) (hp : EIP8Packet 307 packet)
    (hinitial : auth <+: packet) (hlt : auth.length < packet.length) (hk : k ≤ auth.length)
    (moves : List Move) :
    ∃ k', k' ≤ auth.length ∧
      run env (listening env p auth hp k) moves = listening env p auth hp k' := by
  induction moves generalizing k with
  | nil => exact ⟨k, hk, rfl⟩
  | cons m moves ih =>
    have hpart : ∀ n, m = .toResponder n → k + (chunk auth k n).length < packet.length :=
      fun n _ => Nat.lt_of_le_of_lt (chunk_length_le auth n hk) hlt
    obtain ⟨k', -, hk', -, hstep⟩ := step_listening env p hp hinitial hk m hpart
    obtain ⟨k'', hk'', hrun⟩ := ih hk'
    exact ⟨k'', hk'', (congrArg (run env · moves) hstep).trans hrun⟩

theorem start_listening (hp : EIP8Packet 307 packet)
    (hinitiator : p.initiator env = sentAuth (p.dialled env) auth) :
    start env p = listening env p auth hp 0 := by
  unfold start listening
  rw [hinitiator, take_zero, Stage.waiting_nil _ _ _ rfl]

/-- A listener that still waits for the first packet has not come through the handshake. -/
theorem not_connected (hauth : s.responder.state = .Auth) :
    ¬ Connected env p s := by
  rintro ⟨_, r, hagreed, -, later, hr⟩
  have hhello : Onward r (sendHello env r).2 := laws_onward.outgoing.keeps_sendHello.outcome r
  have hrun : Onward (sendHello env r).2 (Connection.run env (sendHello env r).2 later) :=
    laws_onward.run _ later
  have hlate := hrun.late (hhello.late (.inl hagreed.responderState))
  rw [← hr] at hlate
  rcases hlate with h | h <;> cases hauth.symm.trans h

/-- Without EIP-8 everything is delivered in one chunk, and nothing happens. -/
theorem settled_listening (hp : EIP8Packet 307 packet) :
    Settled (listening env p auth hp auth.length) where
  toResponder := rfl
  toInitiator := congrArg List.length
    ((p.stageResponder env).waiting_written (by decide) hp (auth.take auth.length)).symm
  initiatorTick := rfl
  responderTick := (p.stageResponder env).waiting_nextTick (by decide) hp _

/-! ## The handshake -/

/-- Two honest parties come through every handshake, however its bytes are cut into chunks and
whenever the callbacks run, if and only if the dialler uses EIP-8. -/
theorem agrees_iff_useEIP8 (env : Env) {Valid : Bytes → Prop} {p : Setting}
    (hok : p.Ok env Valid) : Agrees env Valid p ↔ p.dialler.useEIP8 = true := by
  constructor
  · intro hagrees
    by_contra hplain
    rw [Bool.not_eq_true] at hplain
    obtain ⟨tail, hcreate, hpos, hlen⟩ := ECIES.authNonEIP8_spec hok.correct hok.ready_dialled
      hok.listenerKeys.privateKey hok.dialled_key hok.draw
    obtain ⟨packet, hinitial, hlt, hp⟩ := plain_length hpos hlen
    have hinitiator : p.initiator env = sentAuth (p.dialled env) (4 :: tail) :=
      hok.initiator_eq (by simp only [hplain, Bool.false_eq_true, if_false, hcreate])
    -- everything that the dialler has written arrives at once
    let moves := [Move.toResponder (4 :: tail).length]
    obtain ⟨k, -, hrun⟩ := run_listening env p hp hinitial hlt (Nat.zero_le _) moves
    rw [← start_listening hp hinitiator] at hrun
    have hk : k = (4 :: tail).length := by
      have hcount := congrArg Network.toResponder hrun
      change 0 + (chunk (p.initiator env).written 0 (4 :: tail).length).length = k at hcount
      rw [← hcount, hinitiator, Nat.zero_add]
      change (List.take (4 :: tail).length (4 :: tail)).length = _
      rw [take_length]
    subst hk
    have hmoves : ∀ m ∈ moves, m.Ok Valid := fun m hm => by
      cases mem_singleton.mp hm
      trivial
    have hconnected := hagrees moves hmoves (hrun ▸ settled_listening hp)
    rw [hrun] at hconnected
    exact not_connected (Stage.waiting_state _ _ hp _) hconnected
  · intro heip8
    obtain ⟨auth, hbegun⟩ := hok.begun heip8
    have hstart : Phase env p auth hbegun.packet (start env p) := by
      rw [start_listening hbegun.packet hbegun.initiator]
      exact .reading 0 (Nat.lt_of_lt_of_le (by decide) hbegun.packet.long)
    intro moves hmoves hsettled
    exact (hstart.run hok hbegun hmoves).connected_of_settled hsettled

end Network

namespace Sample

open Network

abbrev Valid (k : Bytes) : Prop := k ∈ [key 1, key 3, key 4, key 6, key 7, key 8]

theorem length_digest (b : Bytes) : (digest b).length = 32 := by
  rw [digest, length_take, length_append, length_replicate]
  exact Nat.min_eq_left (Nat.le_add_left 32 _)

theorem crypto_correct : crypto.Correct Valid where
  publicKey {k} _ := by
    refine ⟨digest k ++ digest k, ?_, rfl⟩
    rw [length_append, length_digest]
  ecdh {k k'} _ _ := by
    have hx (a b : Bytes) : crypto.ecdhX (crypto.getPublicKey a) b =
        some (xor (digest a) (digest b)) := by
      change some (xor ((digest a ++ digest a).take 32) (digest b)) = _
      rw [take_left' (length_digest a)]
    refine ⟨xor (digest k) (digest k'), length_xor (length_digest k) (length_digest k'),
      hx k k', ?_⟩
    rw [hx, xor, xor, zipWith_comm]
    simp only [UInt8.xor_comm]
  recover {msg k} _ hk := by
    have hkeys : ∀ k ∈ [key 1, key 3, key 4, key 6, key 7, key 8],
        crypto.ecdsaRecover (setLengthLeft (bigIntToBytes (crypto.sign [] k).r) 32 ++
          setLengthLeft (bigIntToBytes (crypto.sign [] k).s) 32) none [] =
            some (crypto.getPublicKey k) := by decide +kernel
    exact hkeys k hk
  signature {msg k} _ hk := by
    have hkeys : ∀ k ∈ [key 1, key 3, key 4, key 6, key 7, key 8],
        bytesToNat (digest k) < 2 ^ 256 := by decide +kernel
    exact ⟨hkeys k hk, hkeys k hk⟩
  keccak := length_digest
  hmac _ _ := length_digest _

def setting (useEIP8 : Bool) : Setting where
  dialler := { options .outbound with nodeId := nodeId 4, useEIP8 := useEIP8 }
  listener := { options .inbound with nodeId := nodeId 1 }
  diallerKeys := ⟨key 4, key 5, key 6⟩
  listenerKeys := ⟨key 1, key 2, key 3⟩
  draw := draw 7
  pad := padding

theorem valid_key : ∀ n ∈ ([1, 3, 4, 6, 7, 8] : List UInt8), Valid (key n) := by
  decide +kernel

theorem draw_ok {n : UInt8} (h : n ∈ ([1, 3, 4, 6, 7, 8] : List UInt8)) : (draw n).Ok Valid :=
  ⟨valid_key n h, length_replicate⟩

theorem padding_ok : PadOk padding := ⟨by decide, by decide⟩

theorem setting_ok (useEIP8 : Bool) : (setting useEIP8).Ok env Valid where
  correct := crypto_correct
  outbound := rfl
  inbound := rfl
  diallerId := rfl
  listenerId := rfl
  diallerKeys := ⟨valid_key 4 (by decide), valid_key 6 (by decide), rfl⟩
  listenerKeys := ⟨valid_key 1 (by decide), valid_key 3 (by decide), rfl⟩
  draw := draw_ok (by decide)
  pad := padding_ok

/-- The packets in two chunks each, and the HELLO messages. -/
def talk : List Move :=
  [.toResponder 310, .toResponder 400, .tickResponder (draw 8) padding, .toInitiator 100,
    .toInitiator 1000, .tickInitiator (draw 7) padding, .toResponder 1000]

theorem agrees_sample : Connected env (setting true) (run env (start env (setting true)) talk) := by
  have hmoves : ∀ m ∈ talk, m.Ok Valid := by
    intro m hm
    simp only [talk, mem_cons, not_mem_nil, or_false] at hm
    rcases hm with rfl | rfl | rfl | rfl | rfl | rfl | rfl
    · trivial
    · trivial
    · exact ⟨draw_ok (by decide), padding_ok⟩
    · trivial
    · trivial
    · exact ⟨draw_ok (by decide), padding_ok⟩
    · trivial
  have hsettled : Settled (run env (start env (setting true)) talk) :=
    ⟨by decide +kernel, by decide +kernel, by decide +kernel, by decide +kernel⟩
  exact (agrees_iff_useEIP8 env (setting_ok true)).mpr rfl talk hmoves hsettled

/-- A dialler without EIP-8 waits for ever, with everything delivered. -/
theorem plain_not_agrees :
    (setting false).Ok env Valid ∧ (setting false).dialler.useEIP8 = false ∧
      ¬ Agrees env Valid (setting false) := by
  refine ⟨setting_ok false, rfl, fun hagrees => ?_⟩
  have hmoves : ∀ m ∈ [Move.toResponder 307], m.Ok Valid := fun m hm => by
    cases mem_singleton.mp hm
    trivial
  have hsettled : Settled (run env (start env (setting false)) [.toResponder 307]) :=
    ⟨by decide +kernel, by decide +kernel, by decide +kernel, by decide +kernel⟩
  exact not_connected (by decide +kernel) (hagrees _ hmoves hsettled)

end Sample
end Rlpx
