-- SUMMARY: A sequence of messages arrives as it was sent, however the stream of frames is cut into chunks.
import TsEthereum.P2p.Frames
import TsEthereum.P2p.RlpxConnection

/-!
# Framing

Two connections whose ciphers and MACs agree. The sender turns messages into
frames; the receiver's loop reads a header, waits for the body, and hands the
message over. What is still to be read, the buffer with the stream behind it, is
always the frames of the messages that were not handed over yet.
-/

open List

namespace Rlpx

open Wire

namespace Connection

open Program

variable {env : Env}

/-! ## Sending -/

/-- The bytes of a message: the code and the data. -/
def messageBytes (code : Nat) (data : Bytes) : Bytes := encodeNumber code ++ data

variable {c : Connection} {w : Wire} {code : Nat} {E : Fault → Connection → Prop}

theorem sendMessage_wp {data : Bytes} {Q : Bool → Connection → Prop} (hclosed : c.closed = false)
    (hdestroyed : c.destroyed = false) (hw : Writes c.eciesSession w)
    (h : ∀ e', Writes e' (w.frame env.crypto (messageBytes code data)).1 →
      Q true { c with
        eciesSession := e'
        written := c.written ++ (w.frame env.crypto (messageBytes code data)).2 }) :
    (sendMessage env code data).wp Q E c := by
  have hheader := ECIES.createBlockHeader_eq (c := env.crypto) hw (messageBytes code data).length
  have hbody := ECIES.createBody_eq (c := env.crypto)
    (e := { c.eciesSession with
      egressAes := some (w.header env.crypto (messageBytes code data).length).1.aes
      egressMac := some (w.header env.crypto (messageBytes code data).length).1.mac })
    (w := (w.header env.crypto (messageBytes code data).length).1) ⟨rfl, rfl⟩
    (messageBytes code data)
  have hdone := h _ (Writes.mk (e := { c.eciesSession with
      egressAes := some (w.frame env.crypto (messageBytes code data)).1.aes
      egressMac := some (w.frame env.crypto (messageBytes code data)).1.mac }) rfl rfl)
  simp only [sendMessage, wp_bind, wp_get, hclosed, Bool.false_eq_true, if_false, withSession,
    wp_onPart]
  apply wp_of_run hheader
  simp only [writeUnlessDestroyed, write, wp_bind, wp_get, hdestroyed, Bool.false_eq_true,
    if_false, wp_modify, wp_onPart]
  apply wp_of_run hbody
  simp only [wp_bind, wp_modify, wp_pure, append_assoc]
  rw [← hclosed, ← hdestroyed] at *
  exact hdone

/-! ## Message codes -/

/-- A code of one byte is sent as that byte. -/
theorem encodeNumber_small {n : Nat} (hpos : 0 < n) (h : n < 128) :
    encodeNumber n = [UInt8.ofNat n] := by
  have hbytes : Rlp.numberToBytes n = [UInt8.ofNat n] := by
    simp only [Rlp.numberToBytes, Rlp.numberBytes, if_pos (Nat.lt_trans h (by decide : 128 < 256))]
  have hsmall : UInt8.ofNat n < 128 := by
    rw [UInt8.lt_iff_toNat_lt, UInt8.toNat_ofNat_of_lt' (Nat.lt_trans h (by decide))]
    exact h
  simp only [encodeNumber, if_neg (Nat.ne_of_gt hpos), hbytes, Rlp.encode, Rlp.encodeBytes,
    if_pos hsmall]

variable {obj : ProtocolDescriptor}

theorem assignOffsets_ge {offset : Nat} {caps : List Capability}
    (h : obj ∈ assignOffsets offset caps) : offset ≤ obj.offset := by
  induction caps generalizing offset with
  | nil => exact absurd h not_mem_nil
  | cons c cs ih =>
    rcases mem_cons.mp h with rfl | htail
    · exact Nat.le_refl offset
    · exact Nat.le_trans (Nat.le_add_right _ _) (ih htail)

/-- The ranges of the negotiated protocols do not overlap. -/
theorem find_assignOffsets {offset : Nat} {caps : List Capability}
    (h : obj ∈ assignOffsets offset caps) (hlow : obj.offset ≤ code)
    (hhigh : code < obj.offset + obj.length) :
    (assignOffsets offset caps).find?
      (fun obj => code ≥ obj.offset && decide (code < obj.offset + obj.length)) = some obj := by
  induction caps generalizing offset with
  | nil => exact absurd h not_mem_nil
  | cons c cs ih =>
    rcases mem_cons.mp h with rfl | htail
    · exact find?_cons_of_pos (by simp only [decide_eq_true hlow, decide_eq_true hhigh,
        Bool.and_self])
    · have hbefore := assignOffsets_ge htail
      refine (find?_cons_of_neg ?_).trans (ih htail)
      have hout : ¬ code < offset + c.length := by omega
      simp only [hout, decide_false, Bool.and_false, Bool.false_eq_true, not_false_eq_true]

/-! ## Messages -/

/-- A message of a subprotocol, with its code counted from the offset of the protocol. -/
structure Message where
  protocol : ProtocolDescriptor
  code : Nat
  payload : Bytes

namespace Message

/-- The call that a subprotocol makes: it compresses for a peer of version 5 or later. -/
def send (env : Env) (m : Message) : Action Bool := do
  let c ← get
  sendMessage env (m.protocol.offset + m.code)
    (if c.hello.any fun hello => decide (hello.protocolVersion ≥ 5) then env.compress m.payload
      else m.payload)

/-- What is framed for a peer of version 5. -/
def bytes (env : Env) (m : Message) : Bytes :=
  messageBytes (m.protocol.offset + m.code) (env.compress m.payload)

def handed (m : Message) : ProtocolDescriptor × Nat × Bytes := (m.protocol, m.code, m.payload)

/-- The code is in the range of a negotiated protocol and is one byte; the size fits. -/
structure Sendable (env : Env) (protocols : List ProtocolDescriptor) (m : Message) : Prop where
  protocol : m.protocol ∈ protocols
  code : m.code < m.protocol.length
  oneByte : m.protocol.offset + m.code < 128
  size : (m.bytes env).length < 2 ^ 24
  /-- The handler returns. -/
  returns : env.throws m.protocol m.code m.payload = false
  /-- Snappy reads back what it has written. -/
  snappy : env.uncompress (env.compress m.payload) = some m.payload

end Message

/-- The messages of a sender, one after the other. -/
def sendAll (env : Env) : List Message → Action Unit
  | [] => ret ()
  | m :: ms => do
    let _ ← m.send env
    sendAll env ms

theorem sendAll_spec (msgs : List Message) (hclosed : c.closed = false)
    (hdestroyed : c.destroyed = false)
    (hversion : c.hello.any (fun hello => decide (hello.protocolVersion ≥ 5)) = true)
    (hw : Writes c.eciesSession w) :
    ∃ a c', sendAll env msgs c = (.ok a, c') ∧
      c'.written = c.written ++ (w.frames env.crypto (msgs.map (Message.bytes env))).2 ∧
      Writes c'.eciesSession (w.frames env.crypto (msgs.map (Message.bytes env))).1 := by
  induction msgs generalizing c w with
  | nil => exact ⟨(), c, rfl, (append_nil _).symm, hw⟩
  | cons m ms ih =>
    rw [map_cons, frames_cons, ← append_assoc]
    apply wp_total
    simp only [sendAll, Message.send, wp_bind, wp_get, hversion, if_true]
    apply sendMessage_wp hclosed hdestroyed hw
    intro e' hw'
    obtain ⟨_, c', hrest, hdone⟩ := ih (c := { c with
      eciesSession := e'
      written := c.written ++ (w.frame env.crypto (m.bytes env)).2 }) hclosed hdestroyed hversion hw'
    exact wp_of_run hrest hdone

/-! ## Receiving -/

/-- A list that starts with another one, seen from a part of it that is long enough. -/
theorem split_stream {buffer later first rest : Bytes} (h : buffer ++ later = first ++ rest)
    (hlen : first.length ≤ buffer.length) :
    buffer.take first.length = first ∧ buffer.drop first.length ++ later = rest := by
  have htake := congrArg (List.take first.length) h
  have hdrop := congrArg (List.drop first.length) h
  rw [take_append_of_le_length hlen, take_left] at htake
  rw [drop_append_of_le_length hlen, drop_left] at hdrop
  exact ⟨htake, hdrop⟩

/-- What stays as it is while messages come in. -/
structure Receiving (protocols : List ProtocolDescriptor) (c : Connection) : Prop where
  isOpen : c.closed = false
  hello : c.hello.any (fun hello => decide (hello.protocolVersion ≥ 5)) = true
  protocols : c.protocols = protocols

/-- Where the receiver stands: before a header or before a body, with the frames of the
messages that are to come in the buffer and behind it. -/
inductive Phase (env : Env) (later : Bytes) (c : Connection) (w : Wire) : List Message → Prop
  | header (todo : List Message) (hstate : c.state = .Header) (hneed : c.nextPacketSize = 32)
      (hreads : Reads c.eciesSession w)
      (hstream : c.socketData ++ later =
        (w.frames env.crypto (todo.map (Message.bytes env))).2) : Phase env later c w todo
  | body (m : Message) (todo : List Message) (hstate : c.state = .Body)
      (hneed : c.nextPacketSize = Wire.padded (m.bytes env).length + 16)
      (hsize : c.eciesSession.bodySize = some (m.bytes env).length)
      (hreads : Reads c.eciesSession (w.header env.crypto (m.bytes env).length).1)
      (hstream : c.socketData ++ later =
        ((w.header env.crypto (m.bytes env).length).1.body env.crypto (m.bytes env)).2 ++
          ((w.frame env.crypto (m.bytes env)).1.frames env.crypto
            (todo.map (Message.bytes env))).2) : Phase env later c w (m :: todo)

/-- The messages that are to come, with those handed over, are all that were sent. -/
structure Underway (env : Env) (protocols : List ProtocolDescriptor)
    (total : List (ProtocolDescriptor × Nat × Bytes)) (final : Wire) (later : Bytes)
    (c : Connection) (w : Wire) (todo : List Message) : Prop where
  receiving : Receiving protocols c
  sendable : ∀ m ∈ todo, m.Sendable env protocols
  phase : Phase env later c w todo
  handed : c.handed ++ todo.map Message.handed = total
  wire : (w.frames env.crypto (todo.map (Message.bytes env))).1 = final

variable {Q : Unit → Connection → Prop}

theorem handleHeader_wp (hkeccak : env.crypto.Keccak) {size : Nat} (hsize : size < 2 ^ 24)
    (hreads : Reads c.eciesSession w)
    (hdata : c.socketData.take c.nextPacketSize = (w.header env.crypto size).2)
    (h : ∀ e', e'.bodySize = some size → Reads e' (w.header env.crypto size).1 →
      Q () { c with
        eciesSession := e'
        state := .Body
        nextPacketSize := padded size + 16
        socketData := c.socketData.drop c.nextPacketSize }) :
    (handleHeader env).wp Q E c := by
  have hparse := ECIES.parseHeader_eq hkeccak hreads hsize
  have hpad : size + 16 + (if size % 16 > 0 then 16 - size % 16 else 0) =
      padded size + 16 := by
    unfold padded
    split <;> omega
  simp only [handleHeader, wp_bind, wp_get, withSession, wp_onPart, hdata]
  apply wp_of_run hparse
  simp only [wp_modify, hpad]
  exact h _ rfl ⟨rfl, rfl⟩

theorem dispatch_subprotocol_wp {payload data : Bytes}
    (hversion : c.hello.any (fun hello => decide (hello.protocolVersion ≥ 5)) = true)
    (hsnappy : env.uncompress data = some payload) (hreturns : env.throws obj code payload = false)
    (h : Q () { c with handed := c.handed ++ [(obj, code, payload)] }) :
    (dispatch env (.subprotocol obj) code data).wp Q E c := by
  simp only [dispatch, wp_bind, wp_get, hversion, if_true, uncompress, hsnappy, wp_ofExcept_ok,
    handToSubprotocol, wp_modify, hreturns, Bool.false_eq_true, if_false, wp_pure]
  exact h

theorem orDisconnect_wp {p : Action Unit} {c : Connection} {Q : Unit → Connection → Prop}
    {E : Fault → Connection → Prop} (h : p.wp Q (fun _ _ => False) c) :
    (orDisconnect env p).wp Q E c := by
  simp only [orDisconnect, wp_bind, wp_attempt]
  apply wp_mono h
  · intro _ c' hq
    exact hq
  · exact fun _ _ hfalse => hfalse.elim

theorem getProtocol_negotiated {caps : List Capability}
    (hc : c.protocols = assignOffsets BASE_PROTOCOL_LENGTH caps)
    (hobj : obj ∈ assignOffsets BASE_PROTOCOL_LENGTH caps) (hcode : code < obj.length) :
    getProtocol c (some (obj.offset + code)) = some (.subprotocol obj, code) := by
  have hfind := find_assignOffsets hobj (Nat.le_add_right _ code) (Nat.add_lt_add_left hcode _)
  have hlow : ¬ obj.offset + code < BASE_PROTOCOL_LENGTH :=
    Nat.not_lt.mpr (Nat.le_trans (assignOffsets_ge hobj) (Nat.le_add_right _ _))
  rw [getProtocol, if_neg hlow, hc, hfind, Option.map_some, Nat.add_sub_cancel_left]

theorem handleBody_wp (hkeccak : env.crypto.Keccak) {caps : List Capability} {m : Message}
    (hc : Receiving (assignOffsets BASE_PROTOCOL_LENGTH caps) c)
    (hm : m.Sendable env (assignOffsets BASE_PROTOCOL_LENGTH caps))
    (hsize : c.eciesSession.bodySize = some (m.bytes env).length) (hreads : Reads c.eciesSession w)
    (hdata : c.socketData.take c.nextPacketSize = (w.body env.crypto (m.bytes env)).2)
    (h : ∀ e', Reads e' (w.body env.crypto (m.bytes env)).1 →
      Q () { c with
        eciesSession := e'
        state := .Header
        nextPacketSize := 32
        handed := c.handed ++ [m.handed]
        socketData := c.socketData.drop c.nextPacketSize }) :
    (handleBody env).wp Q E c := by
  have hparse := ECIES.parseBody_eq hkeccak hreads hsize
  have hlow : BASE_PROTOCOL_LENGTH ≤ m.protocol.offset := assignOffsets_ge hm.protocol
  have hcode : 16 ≤ m.protocol.offset + m.code := Nat.le_trans hlow (Nat.le_add_right _ _)
  have hbytes : m.bytes env =
      UInt8.ofNat (m.protocol.offset + m.code) :: env.compress m.payload := by
    rw [Message.bytes, messageBytes, encodeNumber_small (by omega) hm.oneByte]
    rfl
  have htoNat : (UInt8.ofNat (m.protocol.offset + m.code)).toNat = m.protocol.offset + m.code :=
    UInt8.toNat_ofNat_of_lt' (Nat.lt_trans hm.oneByte (by decide))
  have hnot80 : UInt8.ofNat (m.protocol.offset + m.code) ≠ 0x80 := by
    intro heq
    have hnat := htoNat.symm.trans (congrArg UInt8.toNat heq)
    exact absurd hm.oneByte (Nat.not_lt.mpr (Nat.le_of_eq hnat.symm))
  have hcodeof : (m.bytes env).head?.map (fun b => if b = 0x80 then 0 else b.toNat) =
      some (m.protocol.offset + m.code) := by
    rw [hbytes, head?_cons, Option.map_some, if_neg hnot80, htoNat]
  have hhello : c.hello.isNone = false := by
    have hversion := hc.hello
    cases hello : c.hello with
    | none => rw [hello] at hversion; cases hversion
    | some hello => rfl
  have hprotocol := getProtocol_negotiated hc.protocols hm.protocol hm.code
  simp only [handleBody, wp_bind, wp_get, withSession, wp_onPart, hdata]
  apply wp_of_run hparse
  simp only [wp_bind, wp_modify, hcodeof, hhello, Bool.false_eq_true, and_false, if_false,
    hprotocol]
  apply orDisconnect_wp
  apply dispatch_subprotocol_wp
  · exact hc.hello
  · rw [hbytes]
    exact hm.snappy
  · exact hm.returns
  · exact h _ ⟨rfl, rfl⟩

/-! ## Chunks -/

section
variable {caps : List Capability} {total : List (ProtocolDescriptor × Nat × Bytes)}
  {final : Wire} {later : Bytes}

variable {c : Connection}

/-- Every step of the loop reads a header, or hands a message over. -/
theorem step_underway (hkeccak : env.crypto.Keccak) {w : Wire} {todo : List Message}
    (h : Underway env (assignOffsets BASE_PROTOCOL_LENGTH caps) total final later c w todo)
    (hready : (reader env).ready c = true) :
    ∃ c', (reader env).step c = (.ok (), c') ∧
      (∃ w' todo', Underway env (assignOffsets BASE_PROTOCOL_LENGTH caps) total final later c' w'
        todo') ∧
      c'.socketData.length < c.socketData.length := by
  have hlen : c.nextPacketSize ≤ c.socketData.length := of_decide_eq_true hready
  have hdrop (hpos : 0 < c.nextPacketSize) :
      (c.socketData.drop c.nextPacketSize).length < c.socketData.length := by
    rw [length_drop]
    omega
  suffices hwp : ((reader env).step).wp (fun _ c' => (∃ w' todo',
      Underway env (assignOffsets BASE_PROTOCOL_LENGTH caps) total final later c' w' todo') ∧
      c'.socketData.length < c.socketData.length) (fun _ _ => False) c by
    obtain ⟨_, c', hrun, hdone⟩ := wp_total hwp
    exact ⟨c', hrun, hdone⟩
  cases h.phase with
  | header _ hstate hneed hreads hstream =>
    cases todo with
    | nil =>
      -- nothing is to come, so nothing is in the buffer
      have hnil : c.socketData = [] := (append_eq_nil_iff.mp hstream).1
      rw [hneed, hnil] at hlen
      exact absurd hlen (by decide)
    | cons m todo =>
      have hm := h.sendable m mem_cons_self
      rw [map_cons, frames_cons, frame_bytes, append_assoc] at hstream
      have hheader := length_header hkeccak w hm.size
      obtain ⟨htake, hrest⟩ := split_stream hstream (by rw [hheader, ← hneed]; exact hlen)
      rw [hheader, ← hneed] at htake hrest
      simp only [reader, wp_bind, wp_get, hstate]
      apply handleHeader_wp hkeccak hm.size hreads htake
      intro e' hsize hreads'
      refine ⟨⟨w, m :: todo, ?_⟩, hdrop (by rw [hneed]; decide)⟩
      exact ⟨⟨h.receiving.isOpen, h.receiving.hello, h.receiving.protocols⟩, h.sendable,
        .body m todo rfl rfl hsize hreads' hrest, h.handed, h.wire⟩
  | body m todo hstate hneed hsize hreads hstream =>
    have hm := h.sendable m mem_cons_self
    have hbody := length_body hkeccak (w.header env.crypto (m.bytes env).length).1
      (m.bytes env)
    obtain ⟨htake, hrest⟩ := split_stream hstream (by rw [hbody, ← hneed]; exact hlen)
    rw [hbody, ← hneed] at htake hrest
    simp only [reader, wp_bind, wp_get, hstate]
    apply handleBody_wp hkeccak h.receiving hm hsize hreads htake
    intro e' hreads'
    have hwire := h.wire
    have hhanded := h.handed
    rw [map_cons, frames_cons] at hwire
    rw [map_cons, append_cons] at hhanded
    refine ⟨⟨(w.frame env.crypto (m.bytes env)).1, todo, ?_⟩,
      hdrop (by rw [hneed]; exact Nat.succ_pos _)⟩
    exact ⟨⟨h.receiving.isOpen, h.receiving.hello, h.receiving.protocols⟩,
      fun m' hmem => h.sendable m' (mem_cons_of_mem m hmem),
      .header todo rfl rfl hreads' hrest, hhanded, hwire⟩

theorem onSocketData_underway (hkeccak : env.crypto.Keccak) {chunk : Bytes}
    (h : ∃ w todo, Underway env (assignOffsets BASE_PROTOCOL_LENGTH caps) total final
      (chunk ++ later) c w todo) :
    ∃ c', onSocketData env chunk c = (.ok (), c') ∧
      (∃ w todo, Underway env (assignOffsets BASE_PROTOCOL_LENGTH caps) total final later c' w
        todo) ∧
      (reader env).ready c' = false := by
  obtain ⟨w, todo, h⟩ := h
  -- the chunk moves from what is to come into the buffer
  have hmoved : Underway env (assignOffsets BASE_PROTOCOL_LENGTH caps) total final later
      { c with socketData := c.socketData ++ chunk } w todo := by
    refine ⟨⟨h.receiving.isOpen, h.receiving.hello, h.receiving.protocols⟩, h.sendable, ?_,
      h.handed, h.wire⟩
    cases h.phase with
    | header _ hstate hneed hreads hstream =>
      exact .header todo hstate hneed hreads ((append_assoc _ _ _).trans hstream)
    | body m todo hstate hneed hsize hreads hstream =>
      exact .body m todo hstate hneed hsize hreads ((append_assoc _ _ _).trans hstream)
  have hfuel : (c.socketData ++ chunk).length ≤
      2 * (c.socketData.length + chunk.length) + 4 := by
    rw [length_append]
    omega
  obtain ⟨c', hdrain, hunderway, hwaits⟩ := StreamReader.drain_spec
    (fun c => ∃ w todo,
      Underway env (assignOffsets BASE_PROTOCOL_LENGTH caps) total final later c w todo)
    (fun c => c.socketData.length)
    (fun c hinv hready => step_underway hkeccak hinv.choose_spec.choose_spec hready)
    ⟨w, todo, hmoved⟩ hfuel
  suffices hwp : (onSocketData env chunk).wp (fun _ c'' => c'' = c') (fun _ _ => False) c by
    obtain ⟨_, c'', hrun, rfl⟩ := wp_total hwp
    exact ⟨c'', hrun, hunderway, hwaits⟩
  simp only [onSocketData, wp_bind, wp_get]
  apply wp_when
  · intro _
    simp only [wp_bind, wp_modify]
    exact orDisconnect_wp (wp_of_run hdrain rfl)
  · exact fun hnot => absurd h.receiving.isOpen hnot

/-- Nothing is to come and the receiver waits: everything was handed over. -/
theorem done_of_waiting (hkeccak : env.crypto.Keccak) {w : Wire} {todo : List Message}
    (h : Underway env (assignOffsets BASE_PROTOCOL_LENGTH caps) total final [] c w todo)
    (hwaits : (reader env).ready c = false) :
    c.handed = total ∧ c.socketData = [] ∧ c.state = .Header ∧ Reads c.eciesSession final := by
  have hshort : ¬ c.nextPacketSize ≤ c.socketData.length := of_decide_eq_false hwaits
  cases h.phase with
  | header _ hstate hneed hreads hstream =>
    rw [append_nil] at hstream
    cases todo with
    | nil =>
      refine ⟨(append_nil _).symm.trans h.handed, hstream, hstate, ?_⟩
      exact h.wire ▸ hreads
    | cons m todo =>
      have hm := h.sendable m mem_cons_self
      refine absurd ?_ hshort
      rw [hneed, hstream, map_cons, frames_cons, frame_bytes, append_assoc,
        length_append, length_header hkeccak w hm.size]
      exact Nat.le_add_right _ _
  | body m todo hstate hneed hsize hreads hstream =>
    rw [append_nil] at hstream
    refine absurd ?_ hshort
    rw [hneed, hstream, length_append, length_body hkeccak]
    exact Nat.le_add_right _ _

end

/-- Two connections after their HELLO messages: the receiver has negotiated its protocols and
waits for a header, and the sender writes on the wire that it reads from. -/
structure Linked (s r : Connection) (theirs : HelloMessage) (w : Wire) : Prop where
  senderOpen : s.closed = false
  senderAlive : s.destroyed = false
  senderHello : s.hello.any (fun hello => decide (hello.protocolVersion ≥ 5)) = true
  writes : Writes s.eciesSession w
  isOpen : r.closed = false
  hello : r.hello = some theirs
  version : theirs.protocolVersion = BASE_PROTOCOL_VERSION
  protocols : r.protocols = negotiate r.options.capabilities theirs.capabilities
  state : r.state = .Header
  need : r.nextPacketSize = 32
  buffer : r.socketData = []
  reads : Reads r.eciesSession w

/-- Messages are handed over as they were sent, in order and once each, however the stream is
cut, and the two sides end on the same wire with nothing left in the buffer. -/
theorem messages_delivered (env : Env) (hkeccak : env.crypto.Keccak) {s r : Connection}
    {theirs : HelloMessage} {w : Wire} (hlinked : Linked s r theirs w) (msgs : List Message)
    (hmsgs : ∀ m ∈ msgs, m.Sendable env r.protocols) :
    ∃ s', sendAll env msgs s = (.ok (), s') ∧
      ∀ chunks : List Bytes, s'.written = s.written ++ chunks.flatten →
        ∃ r', StreamReader.feed (onSocketData env) chunks r = (.ok (), r') ∧
          r'.handed = r.handed ++ msgs.map Message.handed ∧ r'.socketData = [] ∧
          ∃ w', Writes s'.eciesSession w' ∧ Reads r'.eciesSession w' := by
  obtain ⟨_, s', hsent, hwritten, hwrites⟩ := sendAll_spec msgs hlinked.senderOpen
    hlinked.senderAlive hlinked.senderHello hlinked.writes
  refine ⟨s', hsent, fun chunks hchunks => ?_⟩
  have hprotocols := hlinked.protocols
  unfold negotiate at hprotocols
  have hversion : r.hello.any (fun hello => decide (hello.protocolVersion ≥ 5)) = true := by
    rw [hlinked.hello, Option.any_some, hlinked.version]
    rfl
  have hstream : chunks.flatten = (w.frames env.crypto (msgs.map (Message.bytes env))).2 :=
    append_cancel_left (hchunks.symm.trans hwritten)
  have hstart : Underway env _ (r.handed ++ msgs.map Message.handed)
      (w.frames env.crypto (msgs.map (Message.bytes env))).1 (chunks.flatten ++ []) r w msgs :=
    ⟨⟨hlinked.isOpen, hversion, hprotocols⟩, hprotocols ▸ hmsgs,
      .header msgs hlinked.state hlinked.need hlinked.reads (by
        rw [hlinked.buffer, append_nil, hstream]; rfl), rfl, rfl⟩
  have hwaits : (reader env).ready r = false := by
    simp only [reader, hlinked.need, hlinked.buffer]
    rfl
  obtain ⟨r', hfed, ⟨w', todo, hunderway⟩, hwaits'⟩ := StreamReader.feed_spec
    (fun later c => (∃ w' todo, Underway env _ (r.handed ++ msgs.map Message.handed)
      (w.frames env.crypto (msgs.map (Message.bytes env))).1 later c w' todo) ∧
      (reader env).ready c = false)
    (fun _ _ _ hinv => onSocketData_underway hkeccak hinv.1)
    chunks ⟨⟨w, msgs, hstart⟩, hwaits⟩
  obtain ⟨hhanded, hempty, -, hreads⟩ := done_of_waiting hkeccak hunderway hwaits'
  exact ⟨r', hfed, hhanded, hempty, _, hwrites, hreads⟩

/-- A message of the only protocol, sent over two connections that have just said HELLO. -/
theorem messages_delivered_sample :
    let s := Sample.connected .outbound
    let r := Sample.connected .inbound
    let m : Message := ⟨⟨Sample.eth, 16, 17⟩, 3, [0xc1, 0x80]⟩
    ∃ s', sendAll Sample.env [m] s = (.ok (), s') ∧
      ∀ chunks : List Bytes, s'.written = s.written ++ chunks.flatten →
        ∃ r', StreamReader.feed (onSocketData Sample.env) chunks r = (.ok (), r') ∧
          r'.handed = r.handed ++ [m.handed] ∧ r'.socketData = [] ∧
          ∃ w', Writes s'.eciesSession w' ∧ Reads r'.eciesSession w' :=
  messages_delivered Sample.env (fun b => by simp [Sample.env, Sample.crypto, Sample.digest])
    (w := ⟨⟨[1], [2], 0⟩, ⟨[3], []⟩⟩)
    ⟨rfl, rfl, rfl, ⟨rfl, rfl⟩, rfl, rfl, rfl, rfl, rfl, rfl, rfl, ⟨rfl, rfl⟩⟩ _ (by
      intro m hm
      cases mem_singleton.mp hm
      exact ⟨by decide +kernel, by decide, by decide, by decide +kernel, rfl, by decide +kernel⟩)

end Connection
end Rlpx
