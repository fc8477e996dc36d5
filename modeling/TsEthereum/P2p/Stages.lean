-- SUMMARY: How a connection reads a handshake packet that comes in chunks, and what it sends itself.
import TsEthereum.P2p.Identity
import TsEthereum.P2p.Packets

/-!
# Stages of the handshake

A connection that waits for a packet is one of two: before it has read the packet's length
and after that. Both packets are read alike.
-/

namespace Rlpx

open Program

namespace Connection

variable {env : Env}

/-! ## Reading a packet -/

theorem orDisconnect_ok {p : Action Unit} {c c' : Connection} (h : p c = (.ok (), c')) :
    orDisconnect env p c = (.ok (), c') := by
  have hwp : (orDisconnect env p).wp (fun _ s => s = c') (fun _ _ => False) c := by
    simp only [orDisconnect, wp_bind, wp_attempt]
    exact wp_of_run h rfl
  obtain ⟨_, s, hrun, rfl⟩ := wp_total hwp
  exact hrun

/-- What is done depends on the outcome only. -/
theorem orDisconnect_congr {p q : Action Unit} {c c' : Connection} (h : p c = q c') :
    orDisconnect env p c = orDisconnect env q c' := by
  unfold orDisconnect
  change andThen (attempt p) _ c = andThen (attempt q) _ c'
  simp only [andThen, attempt, h]

theorem respond_data (env : Env) {c : Connection} (hopen : c.closed = false) (halive : c.destroyed = false)
    (chunk : Bytes) :
    ∃ fuel, respond env c (.data chunk) =
      (orDisconnect env ((reader env).drain (fuel + 2))
        { c with socketData := c.socketData ++ chunk }).2 := by
  refine ⟨2 * (c.socketData.length + chunk.length) + 2, ?_⟩
  have hrun : onSocketData env chunk c =
      orDisconnect env ((reader env).drain (2 * (c.socketData.length + chunk.length) + 4))
        { c with socketData := c.socketData ++ chunk } := by
    change when (c.closed = false) _ c = _
    rw [when, if_pos hopen]
    rfl
  simp only [respond, halive, Bool.false_eq_true, if_false, hrun]

/-- A connection that waits for bytes does nothing without any. -/
theorem respond_nothing {c : Connection} (hwait : c.socketData.length < c.nextPacketSize) :
    respond env c (.data []) = c := by
  cases halive : c.destroyed with
  | true => simp only [respond, halive, if_true]
  | false =>
    cases hopen : c.closed with
    | true =>
      have hrun : onSocketData env [] c = (.ok (), c) := by
        change when (c.closed = false) _ c = _
        rw [when, if_neg (by rw [hopen]; decide)]
        rfl
      simp only [respond, halive, Bool.false_eq_true, if_false, hrun]
    | false =>
      obtain ⟨fuel, hrun⟩ := respond_data env hopen halive []
      have hready : (reader env).ready c = false := decide_eq_false (Nat.not_le_of_lt hwait)
      rw [List.append_nil] at hrun
      rw [hrun, orDisconnect_ok (StreamReader.drain_waiting hready)]

/-- A packet that a connection reads, with what is in its buffer in the meantime. -/
structure Receives {packet : Bytes} (p : StreamReader.SizedPacket (reader env) packet) : Prop where
  buffer : ∀ b chunk, p.Holds (b ++ chunk)
    { p.waiting b with socketData := (p.waiting b).socketData ++ chunk }
  live : ∀ b, (p.waiting b).closed = false ∧ (p.waiting b).destroyed = false

section
variable {packet : Bytes} {p : StreamReader.SizedPacket (reader env) packet}

theorem Receives.part (h : Receives p) {b chunk : Bytes} (hinitial : b ++ chunk <+: packet)
    (hlt : (b ++ chunk).length < packet.length) :
    respond env (p.waiting b) (.data chunk) = p.waiting (b ++ chunk) := by
  obtain ⟨fuel, hrun⟩ := respond_data env (h.live b).1 (h.live b).2 chunk
  rw [hrun, orDisconnect_ok (p.drain_part (h.buffer b chunk) hinitial hlt)]

theorem Receives.whole (h : Receives p) {b chunk rest : Bytes} {done : Connection}
    (hall : b ++ chunk = packet ++ rest)
    (hdone : (reader env).step (p.sized (packet ++ rest)) = (.ok (), done)) :
    ∃ fuel, respond env (p.waiting b) (.data chunk) =
      (orDisconnect env ((reader env).drain fuel) done).2 := by
  obtain ⟨fuel, hrun⟩ := respond_data env (h.live b).1 (h.live b).2 chunk
  obtain ⟨fuel', hdrain⟩ := p.drain_whole hdone (hall ▸ h.buffer b chunk) fuel
  refine ⟨fuel', ?_⟩
  rw [hrun, orDisconnect_congr hdrain]

end

/-- The first two bytes of a packet, of which some more are there. -/
theorem take_two {b packet : Bytes} (hb : 2 ≤ b.length) (hpacket : 2 ≤ packet.length)
    (h : b <+: packet ∨ packet <+: b) : b.take 2 = packet.take 2 := by
  rcases h with ⟨rest, rfl⟩ | ⟨rest, rfl⟩
  · rw [List.take_append_of_le_length hb]
  · rw [List.take_append_of_le_length hpacket]

/-- The packet was parsed to this session, and there are bytes left. -/
def handshaken (c : Connection) (e : ECIES) (callback : Callback) (rest : Bytes) : Connection :=
  { c with
    state := .Header, nextPacketSize := 32, nextTick := c.nextTick ++ [callback]
    socketData := rest, eciesSession := e }

/-- A connection that waits for a packet: how it learns the length, and how it takes the packet. -/
structure Stage (env : Env) (c : Connection) (first : Nat) (mark : ECIES → ECIES)
    (parse : Bytes → Program Fault ECIES Unit) (callback : Callback) : Prop where
  size : c.nextPacketSize = first
  opened : c.closed = false
  alive : c.destroyed = false
  learn (b : Bytes) (n : Nat) : bytesToInt (b.take 2) = .ok n →
    (reader env).step { c with socketData := b } = (.ok (), { c with
      socketData := b, nextPacketSize := n + 2, eciesSession := mark c.eciesSession })
  take (b : Bytes) (n : Nat) (e : ECIES) : parse (b.take n) (mark c.eciesSession) = (.ok (), e) →
    (reader env).step { c with
      socketData := b, nextPacketSize := n, eciesSession := mark c.eciesSession } =
        (.ok (), handshaken c e callback (b.drop n))

theorem stage_auth {c : Connection} (hstate : c.state = .Auth) (hsize : c.nextPacketSize = 307)
    (hunsized : c.eciesSession.gotEIP8Auth = false) (hopen : c.closed = false)
    (halive : c.destroyed = false) :
    Stage env c 307 (fun e => { e with gotEIP8Auth := true }) (ECIES.parseAuthEIP8 env.crypto)
      .sendAck where
  size := hsize
  opened := hopen
  alive := halive
  learn b n hn := by
    have hwp : (reader env).step.wp (fun _ c' => c' = { c with
        socketData := b, nextPacketSize := n + 2
        eciesSession := { c.eciesSession with gotEIP8Auth := true } }) (fun _ _ => False)
        { c with socketData := b } := by
      simp only [reader, wp_bind, wp_get, hstate, handleAuth, hunsized, sameArray,
        Bool.false_eq_true, if_true, if_false, wp_modify, hn, wp_ofExcept_ok]
    obtain ⟨_, c', hrun, rfl⟩ := wp_total hwp
    exact hrun
  take b n e hparse := by
    have hwp : (reader env).step.wp (fun _ c' => c' = handshaken c e .sendAck (b.drop n))
        (fun _ _ => False) { c with
          socketData := b, nextPacketSize := n
          eciesSession := { c.eciesSession with gotEIP8Auth := true } } := by
      simp only [reader, wp_bind, wp_get, hstate, handleAuth, Bool.true_eq_false, if_false,
        withSession, wp_onPart]
      exact wp_of_run hparse rfl
    obtain ⟨_, c', hrun, rfl⟩ := wp_total hwp
    exact hrun

theorem stage_ack {c : Connection} (hstate : c.state = .Ack) (hsize : c.nextPacketSize = 210)
    (hunsized : c.eciesSession.gotEIP8Ack = false) (hopen : c.closed = false)
    (halive : c.destroyed = false) :
    Stage env c 210 (fun e => { e with gotEIP8Ack := true }) (ECIES.parseAckEIP8 env.crypto)
      .sendHello where
  size := hsize
  opened := hopen
  alive := halive
  learn b n hn := by
    have hwp : (reader env).step.wp (fun _ c' => c' = { c with
        socketData := b, nextPacketSize := n + 2
        eciesSession := { c.eciesSession with gotEIP8Ack := true } }) (fun _ _ => False)
        { c with socketData := b } := by
      simp only [reader, wp_bind, wp_get, hstate, handleAck, hunsized, sameArray,
        Bool.false_eq_true, if_true, if_false, wp_modify, hn, wp_ofExcept_ok]
    obtain ⟨_, c', hrun, rfl⟩ := wp_total hwp
    exact hrun
  take b n e hparse := by
    have hwp : (reader env).step.wp (fun _ c' => c' = handshaken c e .sendHello (b.drop n))
        (fun _ _ => False) { c with
          socketData := b, nextPacketSize := n
          eciesSession := { c.eciesSession with gotEIP8Ack := true } } := by
      simp only [reader, wp_bind, wp_get, hstate, handleAck, Bool.true_eq_false, if_false,
        withSession, wp_onPart]
      exact wp_of_run hparse rfl
    obtain ⟨_, c', hrun, rfl⟩ := wp_total hwp
    exact hrun

namespace Stage

variable {c : Connection} {first : Nat} {mark : ECIES → ECIES}
  {parse : Bytes → Program Fault ECIES Unit} {callback : Callback} {packet : Bytes}

def sizedPacket (h : Stage env c first mark parse callback) (htwo : 2 ≤ first)
    (hp : EIP8Packet first packet) : StreamReader.SizedPacket (reader env) packet where
  unsized b := { c with socketData := b }
  sized b := { c with
    socketData := b, nextPacketSize := packet.length, eciesSession := mark c.eciesSession }
  first := first
  first_le := hp.long
  ready_unsized b := by simp only [reader, h.size]
  ready_sized b := rfl
  step_unsized b hb hinitial := by
    have hn := take_two (Nat.le_trans htwo hb) hp.positive hinitial ▸ hp.size
    have hlearn := h.learn b _ hn
    rw [Nat.sub_add_cancel hp.positive] at hlearn
    exact hlearn

/-- The connection with a part of the packet in its buffer. -/
def waiting (h : Stage env c first mark parse callback) (htwo : 2 ≤ first)
    (hp : EIP8Packet first packet) (b : Bytes) : Connection :=
  (h.sizedPacket htwo hp).waiting b

variable (h : Stage env c first mark parse callback) (htwo : 2 ≤ first)
  (hp : EIP8Packet first packet)

theorem waiting_state (b : Bytes) : (h.waiting htwo hp b).state = c.state := by
  unfold waiting StreamReader.SizedPacket.waiting
  split <;> rfl

theorem waiting_nil (hempty : c.socketData = []) : h.waiting htwo hp [] = c := by
  have hlt : ([] : Bytes).length < (h.sizedPacket htwo hp).first :=
    Nat.lt_of_lt_of_le Nat.zero_lt_two htwo
  unfold waiting StreamReader.SizedPacket.waiting
  rw [if_pos hlt]
  change { c with socketData := [] } = c
  rw [← hempty]

theorem waiting_nextTick (b : Bytes) : (h.waiting htwo hp b).nextTick = c.nextTick := by
  unfold waiting StreamReader.SizedPacket.waiting
  split <;> rfl

theorem waiting_written (b : Bytes) : (h.waiting htwo hp b).written = c.written := by
  unfold waiting StreamReader.SizedPacket.waiting
  split <;> rfl

theorem receives : Receives (h.sizedPacket htwo hp) where
  buffer b chunk := by
    unfold StreamReader.SizedPacket.waiting
    split
    · exact .inl rfl
    · rename_i hfirst
      refine .inr ⟨rfl, Nat.le_trans (Nat.le_of_not_lt hfirst) ?_⟩
      exact (List.prefix_append b chunk).length_le
  live b := by
    unfold StreamReader.SizedPacket.waiting
    split <;> exact ⟨h.opened, h.alive⟩

/-- A part of the packet that is not all of it is kept. -/
theorem respond_part {b chunk : Bytes} (hinitial : b ++ chunk <+: packet)
    (hlt : (b ++ chunk).length < packet.length) :
    respond env (h.waiting htwo hp b) (.data chunk) = h.waiting htwo hp (b ++ chunk) :=
  (h.receives htwo hp).part hinitial hlt

/-- The chunk with the packet's end brings the connection through the handshake, with the rest
of the chunk still to be read. -/
theorem respond_whole {b chunk rest : Bytes} {e : ECIES} (hall : b ++ chunk = packet ++ rest)
    (hparse : parse packet (mark c.eciesSession) = (.ok (), e)) :
    ∃ fuel, respond env (h.waiting htwo hp b) (.data chunk) =
      (orDisconnect env ((reader env).drain fuel) (handshaken c e callback rest)).2 := by
  apply (h.receives htwo hp).whole hall
  have htake := h.take (packet ++ rest) packet.length e (List.take_left ▸ hparse)
  rw [List.drop_left] at htake
  exact htake

end Stage

/-- The packet was written, and the connection waits for the answer. -/
def sentAuth (c : Connection) (packet : Bytes) : Connection :=
  { c with
    eciesSession := { c.eciesSession with initMsg := some packet }
    written := c.written ++ packet, state := .Ack, nextPacketSize := 210 }

theorem sendAuth_eq {c : Connection} {draw : Draw} {pad packet : Bytes} (hopen : c.closed = false)
    (hcreate : (if c.options.useEIP8 then ECIES.createAuthEIP8 env.crypto draw pad
      else ECIES.createAuthNonEIP8 env.crypto draw) c.eciesSession =
        (.ok (some packet), { c.eciesSession with initMsg := some packet })) :
    sendAuth env draw pad c = (.ok (), sentAuth c packet) := by
  change when (c.closed = false) _ c = _
  rw [when, if_pos hopen]
  change andThen (withSession _) _ c = _
  simp only [andThen, withSession, onPart, hcreate]
  rfl

/-- The answer was written and the frames are set up. The HELLO is what comes next. -/
def sentAck (c : Connection) (e : ECIES) (packet : Bytes) : Connection :=
  { c with
    eciesSession := e, written := c.written ++ packet, state := .Header, nextPacketSize := 32 }

theorem sendAck_eq {c : Connection} {draw : Draw} {pad packet : Bytes} {e : ECIES}
    (hopen : c.closed = false) (heip8 : c.eciesSession.gotEIP8Auth = true)
    (hcreate : ECIES.createAckEIP8 env.crypto draw pad c.eciesSession = (.ok (some packet), e)) :
    sendAck env draw pad c = sendHello env (sentAck c e packet) := by
  change when (c.closed = false) _ c = _
  rw [when, if_pos hopen, heip8]
  change andThen (withSession (ECIES.createAckEIP8 env.crypto draw pad)) _ c = _
  simp only [andThen, withSession, onPart, hcreate]
  rfl

end Connection
end Rlpx
