-- SUMMARY: The RLPx connection: handshake, HELLO exchange, frames and what a peer or a caller can do to it.
import TsEthereum.Base.StreamReader
import TsEthereum.P2p.Ecies

/-!
# RLPx connections

The state machine of one connection. Reads of the socket come in chunks; what the
connection writes, emits and hands to its subprotocols is kept in lists. Callbacks
of `process.nextTick` wait in a queue. Logging, the socket's own timeouts and the
delayed `socket.end()` are left out.
-/

namespace Rlpx

inductive RLPxConnectionState where
  | Auth | Ack | Header | Body
  deriving DecidableEq, Repr

inductive Direction where
  | inbound | outbound
  deriving DecidableEq, Repr

namespace DISCONNECT_REASON

def NETWORK_ERROR : Nat := 0x01
def PROTOCOL_ERROR : Nat := 0x02
def USELESS_PEER : Nat := 0x03
def INVALID_IDENTITY : Nat := 0x07
def TIMEOUT : Nat := 0x0b
def SUBPROTOCOL_ERROR : Nat := 0x10

end DISCONNECT_REASON

namespace RLPX_PREFIXES

def HELLO : Nat := 0x00
def DISCONNECT : Nat := 0x01
def PING : Nat := 0x02
def PONG : Nat := 0x03

end RLPX_PREFIXES

def BASE_PROTOCOL_VERSION : Nat := 5
def BASE_PROTOCOL_LENGTH : Nat := 16

structure Capability where
  name : String
  version : Nat
  length : Nat
  deriving DecidableEq, Repr

structure ProtocolDescriptor where
  protocol : Capability
  offset : Nat
  length : Nat
  deriving DecidableEq, Repr

/-- The last element of a HELLO payload, whatever it is; `none` is `undefined`. -/
abbrev HelloId := Option Rlp.Item

structure HelloMessage where
  protocolVersion : Nat
  clientId : String
  capabilities : List (String × Nat)
  port : Nat
  id : HelloId

/-- A HELLO that was accepted, with what was known before. No function reads it. -/
structure AcceptedHello where
  /-- The identity that the connection goes by from then on. -/
  id : HelloId
  remotePublicKey : Option Bytes
  /-- 'connect' had been emitted already. -/
  again : Bool
  deriving DecidableEq

inductive Event where
  | connect
  | protocolsReady
  | error (fault : Fault)
  | close (reason : Option Nat) (we : Option Bool)
  deriving DecidableEq

inductive Callback where
  | sendAck | sendHello
  deriving DecidableEq, Repr

/-- The code around the connection: primitives, the snappy codec, text functions and the
subprotocols, which may throw. -/
structure Env where
  crypto : Crypto
  compress : Bytes → Bytes
  uncompress : Bytes → Option Bytes
  bytesToUtf8 : Bytes → String
  toLowerCase : String → String
  throws : ProtocolDescriptor → Nat → Bytes → Bool

structure Options where
  direction : Direction
  nodeId : Bytes
  clientId : Bytes
  capabilities : List Capability
  listenPort : Option Nat
  remoteClientIdFilter : Option (List String)
  useEIP8 : Bool

structure Connection where
  options : Options
  socketData : Bytes
  eciesSession : ECIES
  /-- `none` is `null`. -/
  remoteId : Option HelloId
  state : RLPxConnectionState
  nextPacketSize : Nat
  weHello : Option Rlp.Item
  hello : Option HelloMessage
  connected : Bool
  closed : Bool
  disconnectReason : Option Nat
  disconnectWe : Option Bool
  protocols : List ProtocolDescriptor
  /-- `_socket.destroyed`. -/
  destroyed : Bool
  written : Bytes
  nextTick : List Callback
  emitted : List Event
  /-- What the subprotocols were given. -/
  handed : List (ProtocolDescriptor × Nat × Bytes)
  accepted : List AcceptedHello

namespace Connection

open Program

abbrev Action (α : Type) := Program Fault Connection α

/-- A call of the ECIES session. -/
def withSession {α : Type} (p : Program Fault ECIES α) : Action α :=
  onPart eciesSession (fun e c => { c with eciesSession := e }) p

def write (data : Bytes) : Action Unit := modify fun c => { c with written := c.written ++ data }

def emit (event : Event) : Action Unit :=
  modify fun c => { c with emitted := c.emitted ++ [event] }

/-! ## Sending -/

/-- `RLP.encode` of a number. -/
def encodeNumber (n : Nat) : Bytes :=
  Rlp.encode (.bytes (if n = 0 then [] else Rlp.numberToBytes n))

/-- Both halves of a frame: the bytes are written unless there are none. -/
def writeUnlessDestroyed (bytes : Option Bytes) (next : Action Bool) : Action Bool := do
  let c ← get
  match bytes with
  | none => pure false
  | some bytes => if c.destroyed then pure false else do write bytes; next

def sendMessage (env : Env) (code : Nat) (data : Bytes) : Action Bool := do
  let c ← get
  if c.closed then pure false
  else
    let msg := encodeNumber code ++ data
    let header ← withSession (ECIES.createBlockHeader env.crypto msg.length)
    writeUnlessDestroyed header do
      let body ← withSession (ECIES.createBody env.crypto msg)
      writeUnlessDestroyed body (pure true)

def onConnect : Action Unit := do
  emit .connect
  emit .protocolsReady

def helloPayload (options : Options) : Rlp.Item :=
  .list [
    .bytes (intToBytes BASE_PROTOCOL_VERSION),
    .bytes options.clientId,
    .list (options.capabilities.map fun c =>
      .list [.bytes c.name.toUTF8.toList, .bytes (intToBytes c.version)]),
    .bytes (match options.listenPort with
      | none => []
      | some port => intToBytes port),
    .bytes options.nodeId]

def sendHello (env : Env) : Action Unit := do
  let c ← get
  let payload := helloPayload c.options
  when (c.closed = false) do
    let sent ← sendMessage env RLPX_PREFIXES.HELLO (Rlp.encode payload)
    when (sent = true) (modify fun c => { c with weHello := some payload })
    when (c.hello.isSome) onConnect

/-- `_sendDisconnect`, which is all that `disconnect` does. -/
def disconnect (env : Env) (reason : Nat) : Action Unit := do
  let sent ← sendMessage env RLPX_PREFIXES.DISCONNECT (encodeNumber reason)
  when (sent = true) (modify fun c => { c with
    disconnectReason := some reason, disconnectWe := some true, closed := true })

/-- The empty list, compressed for a peer of version 5 or later. -/
def emptyPayload (env : Env) (c : Connection) : Bytes :=
  let data := Rlp.encode (.list [])
  if c.hello.any fun hello => hello.protocolVersion ≥ 5 then env.compress data else data

def sendPing (env : Env) : Action Unit := do
  let c ← get
  let _ ← sendMessage env RLPX_PREFIXES.PING (emptyPayload env c)

def sendPong (env : Env) : Action Unit := do
  let c ← get
  let _ ← sendMessage env RLPX_PREFIXES.PONG (emptyPayload env c)

/-! ## The handshake -/

/-- A handshake packet is written, and the state moves on; nothing happens without one. -/
def afterPacket (packet : Option Bytes) (next : Action Unit) : Action Unit :=
  match packet with
  | none => pure ()
  | some bytes => do write bytes; next

def sendAuth (env : Env) (draw : Draw) (pad : Bytes) : Action Unit := do
  let c ← get
  when (c.closed = false) do
    let packet ← withSession (
      if c.options.useEIP8 then ECIES.createAuthEIP8 env.crypto draw pad
      else ECIES.createAuthNonEIP8 env.crypto draw)
    afterPacket packet
      (modify fun c => { c with state := .Ack, nextPacketSize := 210 })

def sendAck (env : Env) (draw : Draw) (pad : Bytes) : Action Unit := do
  let c ← get
  when (c.closed = false) do
    let packet ← withSession (
      if c.eciesSession.gotEIP8Auth then ECIES.createAckEIP8 env.crypto draw pad
      else ECIES.createAckOld env.crypto draw)
    afterPacket packet do
      modify fun c => { c with state := .Header, nextPacketSize := 32 }
      sendHello env

/-- `===` of two arrays compares references, and a fresh slice is no other array. -/
def sameArray (_slice _constant : Bytes) : Bool := false

/-- The packet has been read: the frames come next, and our answer in the next tick. -/
def handshakeDone (callback : Callback) (bytesCount : Nat) : Action Unit :=
  modify fun c => { c with
    state := .Header, nextPacketSize := 32, nextTick := c.nextTick ++ [callback]
    socketData := c.socketData.drop bytesCount }

def handleAuth (env : Env) : Action Unit := do
  let c ← get
  let bytesCount := c.nextPacketSize
  let parseData := c.socketData.take bytesCount
  if c.eciesSession.gotEIP8Auth = false then
    if sameArray (parseData.take 1) [4] then
      withSession (ECIES.parseAuthPlain env.crypto parseData none)
      handshakeDone .sendAck bytesCount
    else
      modify fun c => { c with eciesSession := { c.eciesSession with gotEIP8Auth := true } }
      let size ← ofExcept (bytesToInt (c.socketData.take 2))
      modify fun c => { c with nextPacketSize := size + 2 }
  else
    withSession (ECIES.parseAuthEIP8 env.crypto parseData)
    handshakeDone .sendAck bytesCount

def handleAck (env : Env) : Action Unit := do
  let c ← get
  let bytesCount := c.nextPacketSize
  let parseData := c.socketData.take bytesCount
  if c.eciesSession.gotEIP8Ack = false then
    if sameArray (parseData.take 1) [4] then
      withSession (ECIES.parseAckPlain env.crypto parseData none)
      handshakeDone .sendHello bytesCount
    else
      modify fun c => { c with eciesSession := { c.eciesSession with gotEIP8Ack := true } }
      let size ← ofExcept (bytesToInt (c.socketData.take 2))
      modify fun c => { c with nextPacketSize := size + 2 }
  else
    withSession (ECIES.parseAckEIP8 env.crypto parseData)
    handshakeDone .sendHello bytesCount

/-! ## HELLO -/

def itemToInt : Option Rlp.Item → Except Fault Nat
  | some (.bytes b) => bytesToInt b
  | _ => .error .typeError

def itemToUtf8 (env : Env) : Option Rlp.Item → Except Fault String
  | some (.bytes b) => .ok (env.bytesToUtf8 b)
  | _ => .error .typeError

/-- The name and the version of a capability; the elements of a byte array have neither. -/
def parseCapability (env : Env) : Rlp.Item → Except Fault (String × Nat)
  | .list item => do
    let name ← itemToUtf8 env item[0]?
    let version ← itemToInt item[1]?
    .ok (name, version)
  | .bytes _ => .error .typeError

def parseCapabilities (env : Env) : Option Rlp.Item → Except Fault (List (String × Nat))
  | some (.list items) => items.mapM (parseCapability env)
  | some (.bytes []) => .ok []
  | _ => .error .typeError

def parseHello (env : Env) : Rlp.Item → Except Fault HelloMessage
  | .list payload => do
    let protocolVersion ← itemToInt payload[0]?
    let clientId ← itemToUtf8 env payload[1]?
    let capabilities ← parseCapabilities env payload[2]?
    let port ← itemToInt payload[3]?
    .ok { protocolVersion, clientId, capabilities, port, id := payload[4]? }
  | .bytes _ => .error .typeError

/-- Lengths first, then the elements by `!==`, which tells any two arrays apart. -/
def equalsBytes : HelloId → HelloId → Except Fault Bool
  | some (.bytes a), some (.bytes b) => .ok (a = b)
  | some a, some b => .ok (a.length = 0 && b.length = 0)
  | _, _ => .error .typeError

/-- `text.toLowerCase().includes(part.toLowerCase())`. -/
def includesIgnoringCase (env : Env) (text part : String) : Bool :=
  decide ((env.toLowerCase part).toList <:+: (env.toLowerCase text).toList)

/-- A capability of ours that the peer has in the same version, unless a later version of
it is there. The names are keys of an object, to which `__proto__` adds none. -/
def share (item : String × Nat) (shared : OrderedMap String Capability) (c : Capability) :
    OrderedMap String Capability :=
  if c.name ≠ item.1 ∨ c.version ≠ item.2 then shared
  else if (shared.get c.name).any fun other => other.version > c.version then shared
  else if c.name = "__proto__" then shared
  else shared.set c.name c

def sharedCapabilities (ours : List Capability) (theirs : List (String × Nat)) :
    OrderedMap String Capability :=
  theirs.foldl (fun shared item => ours.foldl (share item) shared) .empty

/-- Where a character stands among the units of 16 bits that strings are compared by: those that
need two units are before U+E000. -/
def unitOrder (c : Char) : Nat :=
  if 0xE000 ≤ c.toNat ∧ c.toNat < 0x10000 then c.toNat + 0x110000 else c.toNat

def nameLt (name name' : String) : Bool :=
  decide (name.toList.map unitOrder < name'.toList.map unitOrder)

def assignOffsets (offset : Nat) : List Capability → List ProtocolDescriptor
  | [] => []
  | c :: cs => ⟨c, offset, c.length⟩ :: assignOffsets (offset + c.length) cs

def negotiate (ours : List Capability) (theirs : List (String × Nat)) :
    List ProtocolDescriptor :=
  let shared := (sharedCapabilities ours theirs).entries.map Prod.snd
  assignOffsets BASE_PROTOCOL_LENGTH (shared.mergeSort fun c c' => nameLt c.name c'.name)

def filtered (env : Env) (c : Connection) (hello : HelloMessage) : Bool :=
  (c.options.remoteClientIdFilter.getD []).any (includesIgnoringCase env hello.clientId)

/-- The end of `_handleHello`, for a peer that is who it should be. -/
def acceptHello (env : Env) (hello : HelloMessage) : Action Unit := do
  let c ← get
  if filtered env c hello then disconnect env DISCONNECT_REASON.USELESS_PEER
  else
    modify fun c => { c with protocols := negotiate c.options.capabilities hello.capabilities }
    if negotiate c.options.capabilities hello.capabilities = [] then
      disconnect env DISCONNECT_REASON.USELESS_PEER
    else
      modify fun c => { c with
        connected := true
        accepted := c.accepted ++ [{
          id := c.remoteId.getD hello.id
          remotePublicKey := c.eciesSession.remotePublicKey
          again := c.emitted.contains .connect }] }
      when (c.weHello.isSome) onConnect

def handleHello (env : Env) (payload : Rlp.Item) : Action Unit := do
  let hello ← ofExcept (parseHello env payload)
  modify fun c => { c with hello := some hello }
  let c ← get
  match c.remoteId with
  | none =>
    modify fun c => { c with remoteId := some hello.id }
    acceptHello env hello
  | some remoteId =>
    if ← ofExcept (equalsBytes remoteId hello.id) then acceptHello env hello
    else disconnect env DISCONNECT_REASON.INVALID_IDENTITY

/-! ## Frames -/

/-- The reason that a DISCONNECT carries. -/
def disconnectReasonOf : Rlp.Item → Except Fault Nat
  | .bytes b => bytesToInt b
  | .list [] => bytesToInt [0]
  | .list (x :: _) => itemToInt (some x)

def handleDisconnect (payload : Rlp.Item) : Action Unit := do
  modify fun c => { c with closed := true }
  let reason ← ofExcept (disconnectReasonOf payload)
  modify fun c => { c with disconnectReason := some reason, disconnectWe := some false }

def handleMessage (env : Env) (code : Nat) (msg : Rlp.Item) : Action Unit :=
  if code = RLPX_PREFIXES.HELLO then handleHello env msg
  else if code = RLPX_PREFIXES.DISCONNECT then handleDisconnect msg
  else if code = RLPX_PREFIXES.PING then sendPong env
  -- a PONG stops a timer, and other codes of the base protocol mean nothing
  else pure ()

def handleHeader (env : Env) : Action Unit := do
  let c ← get
  let bytesCount := c.nextPacketSize
  let size ← withSession (ECIES.parseHeader env.crypto (c.socketData.take bytesCount))
  match size with
  | none => pure ()
  | some size =>
    modify fun c => { c with
      state := .Body
      nextPacketSize := size + 16 + if size % 16 > 0 then 16 - size % 16 else 0
      socketData := c.socketData.drop bytesCount }

/-- The receiver of a message: the connection itself, or a subprotocol. -/
inductive Receiver where
  | base
  | subprotocol (obj : ProtocolDescriptor)

def getProtocol (c : Connection) (code : Option Nat) : Option (Receiver × Nat) :=
  match code with
  | none => none
  | some code =>
    if code < BASE_PROTOCOL_LENGTH then some (.base, code)
    else
      (c.protocols.find? fun obj => code ≥ obj.offset && decide (code < obj.offset + obj.length)).map
        fun obj => (.subprotocol obj, code - obj.offset)

def uncompress (env : Env) (payload : Bytes) : Except Fault Bytes :=
  match env.uncompress payload with
  | none => .error .crypto
  | some data => .ok data

def decodeRlp (payload : Bytes) : Except Fault Rlp.Item :=
  match Rlp.decode payload with
  | .ok item => .ok item
  | .error e => .error (.rlp e)

/-- The payload of a base message; a DISCONNECT may be compressed or not, whatever was agreed. -/
def decodeBase (env : Env) (code : Nat) (compressed : Bool) (origPayload payload : Bytes) :
    Except Fault Rlp.Item :=
  match decodeRlp payload with
  | .ok item => .ok item
  | .error e =>
    if code = RLPX_PREFIXES.DISCONNECT then
      if compressed then decodeRlp origPayload
      else uncompress env payload >>= decodeRlp
    else .error e

def handToSubprotocol (env : Env) (obj : ProtocolDescriptor) (code : Nat) (payload : Bytes) :
    Action Unit := do
  modify fun c => { c with handed := c.handed ++ [(obj, code, payload)] }
  if env.throws obj code payload then throw .handler else pure ()

/-- What `_handleBody` does within its `try`. -/
def dispatch (env : Env) (receiver : Receiver) (msgCode : Nat) (origPayload : Bytes) :
    Action Unit := do
  let c ← get
  let compressed := c.hello.any fun hello => decide (hello.protocolVersion ≥ 5)
  let payload ← ofExcept (if compressed then uncompress env origPayload else .ok origPayload)
  match receiver with
  | .base =>
    let msg ← ofExcept (decodeBase env msgCode compressed origPayload payload)
    handleMessage env msgCode msg
  | .subprotocol obj => handToSubprotocol env obj msgCode payload

/-- The `catch` clauses of the connection. -/
def orDisconnect (env : Env) (p : Action Unit) : Action Unit := do
  match ← attempt p with
  | .ok () => pure ()
  | .error fault =>
    disconnect env DISCONNECT_REASON.SUBPROTOCOL_ERROR
    emit (.error fault)

def handleBody (env : Env) : Action Unit := do
  let c ← get
  let bytesCount := c.nextPacketSize
  let body ← withSession (ECIES.parseBody env.crypto (c.socketData.take bytesCount))
  match body with
  | none => pure ()
  | some body =>
    modify fun c => { c with state := .Header, nextPacketSize := 32 }
    let code := body.head?.map fun b => if b = 0x80 then 0 else b.toNat
    if code ≠ some RLPX_PREFIXES.HELLO ∧ code ≠ some RLPX_PREFIXES.DISCONNECT ∧
        c.hello.isNone then
      disconnect env DISCONNECT_REASON.PROTOCOL_ERROR
    else
      match getProtocol c code with
      | none => disconnect env DISCONNECT_REASON.PROTOCOL_ERROR
      | some (receiver, msgCode) =>
        orDisconnect env (dispatch env receiver msgCode (body.drop 1))
        modify fun c => { c with socketData := c.socketData.drop bytesCount }

def reader (env : Env) : StreamReader Fault Connection where
  ready c := decide (c.socketData.length ≥ c.nextPacketSize)
  step := do
    let c ← get
    match c.state with
    | .Auth => handleAuth env
    | .Ack => handleAck env
    | .Header => handleHeader env
    | .Body => handleBody env

/-- The bound is never met but where the source loops for ever, on a header that comes before
the frame ciphers are there. -/
def onSocketData (env : Env) (data : Bytes) : Action Unit := do
  let c ← get
  when (c.closed = false) do
    modify fun c => { c with socketData := c.socketData ++ data }
    orDisconnect env ((reader env).drain (2 * (c.socketData.length + data.length) + 4))

def onSocketClose : Action Unit := do
  modify fun c => { c with closed := true }
  let c ← get
  when (c.connected = true) (emit (.close c.disconnectReason c.disconnectWe))

def close : Action Unit := do
  let c ← get
  when (c.closed = false) do
    modify fun c => { c with closed := true, destroyed := true }
    emit (.close none (some true))

def getId (c : Connection) : Option HelloId := c.remoteId

/-! ## Creation -/

def created (env : Env) (options : Options) (privateKey : Bytes) (remoteId : Option Bytes)
    (nonce ephemeralPrivateKey : Bytes) : Connection where
  options := options
  socketData := []
  eciesSession := ECIES.new env.crypto privateKey options.nodeId remoteId nonce ephemeralPrivateKey
  remoteId := remoteId.map fun id => some (.bytes id)
  state := .Auth
  nextPacketSize := 307
  weHello := none
  hello := none
  connected := false
  closed := false
  disconnectReason := none
  disconnectWe := none
  protocols := []
  destroyed := false
  written := []
  nextTick := []
  emitted := []
  handed := []
  accepted := []

/-- The constructor: an outbound connection starts the handshake. -/
def new (env : Env) (options : Options) (privateKey : Bytes) (remoteId : Option Bytes)
    (nonce ephemeralPrivateKey : Bytes) (draw : Draw) (pad : Bytes) :
    Except Fault Unit × Connection :=
  let c := created env options privateKey remoteId nonce ephemeralPrivateKey
  if options.direction = .outbound ∧ remoteId.isSome then sendAuth env draw pad c
  else (.ok (), c)

end Connection

/-! ## A sample environment -/

namespace Sample

/-- 32 bytes of the input, which is all that is asked of a digest here. -/
def digest (b : Bytes) : Bytes := (b ++ List.replicate 32 0).take 32

/-- Keys of 32 bytes; a public key spells its private key twice, and a product is the
combination of both keys. -/
def crypto : Crypto where
  getPublicKey privateKey := 4 :: (digest privateKey ++ digest privateKey)
  publicKeyConvert pk := pk
  ecdhX publicKey privateKey := some (xor ((publicKey.drop 1).take 32) (digest privateKey))
  sign _ privateKey := ⟨bytesToNat (digest privateKey), bytesToNat (digest privateKey), 0⟩
  ecdsaRecover signature _ _ := some (4 :: (signature.take 32 ++ signature.take 32))
  keccak256 := digest
  sha256 := digest
  hmacSha256 key data := digest (key ++ data)
  aes128ctr key iv n := key.getD (n % 16) 0 ^^^ iv.getD (n % 16) 0
  aes256ctr key iv n := key.getD (n % 32) 0 ^^^ iv.getD (n % 16) 0
  aes256ecb key block := xor block (digest key)

/-- A compressed text is its length and one literal, as it is for fewer than 15 bytes. -/
def env : Env where
  crypto := crypto
  compress data :=
    UInt8.ofNat data.length :: if data = [] then [] else UInt8.ofNat (4 * (data.length - 1)) :: data
  uncompress data := match data with
    | [] => none
    | [_] => some []
    | _ :: _ :: literal => some literal
  bytesToUtf8 data := String.ofList (data.map fun b => Char.ofNat b.toNat)
  toLowerCase := String.toLower
  throws _ _ _ := false

def eth : Capability := ⟨"eth", 68, 17⟩

def options (direction : Direction) : Options where
  direction := direction
  nodeId := []
  clientId := []
  capabilities := [eth]
  listenPort := none
  remoteClientIdFilter := none
  useEIP8 := true

def hello : HelloMessage := ⟨5, "", [("eth", 68)], 0, some (.bytes [])⟩

/-- A connection after the handshake and the HELLO messages. -/
def connected (direction : Direction) : Connection :=
  let c := Connection.created env (options direction) [] none [] []
  { c with
    state := .Header
    nextPacketSize := 32
    hello := some hello
    connected := true
    protocols := Connection.negotiate [eth] hello.capabilities
    eciesSession := { c.eciesSession with
      ingressAes := some ⟨[1], [2], 0⟩
      egressAes := some ⟨[1], [2], 0⟩
      ingressMac := some ⟨[3], []⟩
      egressMac := some ⟨[3], []⟩ } }

end Sample
end Rlpx
