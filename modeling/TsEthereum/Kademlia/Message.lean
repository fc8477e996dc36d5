-- SUMMARY: The discovery messages: field codecs, the four payloads and the signed frame, and that a decoded message is the encoded one.
import TsEthereum.Kademlia.Bucket
import TsEthereum.Kademlia.IpRead
import TsEthereum.Rlp.Rlp

/-!
# Discovery messages

A frame is the hash of what follows, the signature with its recovery id, the type and the
RLP encoding of the payload. Numbers are natural ones. Decoding starts at bytes that begin
their buffer, since RLP copies the strings that it decodes. A payload that has not the
declared type of its message is malformed; the source does not check for this.
-/

/-- A signature as the signing function returns it. -/
structure Signature where
  r : Nat
  s : Nat
  recovery : Nat

/-- The functions of other packages. -/
structure Crypto where
  bytesToUnprefixedHex : Bytes → String
  bytesToUtf8 : Bytes → String
  keccak256 : Bytes → Bytes
  sign : Bytes → Bytes → Signature
  ecdsaRecover : Bytes → Nat → Bytes → Option Bytes

inductive MessageError where
  | invalidTimestamp (bytes : Bytes)
  | invalidAddress (value : String)
  | invalidAddressBytes (bytes : Bytes)
  | invalidPort (value : Nat)
  | exceeds53Bits
  | invalidInteger (i : Nat)
  | missingId
  | invalidPeerData
  | invalidType (type : Option UInt8)
  | hashMismatch (expected actual : Bytes)
  | rlp (e : Rlp.RlpError)
  /-- The payload has not the declared type. -/
  | malformed
  /-- The recovery of the public key fails. -/
  | recovery

namespace Message

open IpText

variable (crypto : Crypto)

def bytesToHex (bytes : Bytes) : String := "0x" ++ crypto.bytesToUnprefixedHex bytes

def errorMessage : MessageError → String
  | .invalidTimestamp bytes => "Invalid timestamp bytes: " ++ bytesToHex crypto bytes
  | .invalidAddress value => "Invalid address: " ++ value
  | .invalidAddressBytes bytes => "Invalid address bytes: " ++ bytesToHex crypto bytes
  | .invalidPort value => "Invalid port: " ++ toString value
  | .exceeds53Bits => "Number exceeds 53 bits"
  | .invalidInteger i => "Received an invalid integer type: " ++ toString i
  | .missingId => "Peer must have id for neighbours message"
  | .invalidPeerData => "Invalid neighbours peer data"
  | .invalidType type => "Invalid type: " ++ (type.map (fun type => toString type)).getD "undefined"
  | .hashMismatch expected actual =>
    "Hash verification failed: " ++ bytesToHex crypto expected ++ " / " ++ bytesToHex crypto actual
  | .rlp e => e.message
  | .malformed => ""
  | .recovery => ""

/-! ## Numbers -/

/-- The big-endian number. -/
def bytesToNat (bytes : Bytes) : Nat := bytes.foldl (fun n b => 256 * n + b.toNat) 0

def bytesToInt (bytes : Bytes) : Except MessageError Nat :=
  if bytesToNat bytes < 2 ^ 53 then .ok (bytesToNat bytes) else .error .exceeds53Bits

def intToBytes (i : Nat) : Except MessageError Bytes :=
  if i < 2 ^ 53 then .ok (Rlp.numberToBytes i) else .error (.invalidInteger i)

def bigIntToBytes (num : Nat) : Bytes := Rlp.numberToBytes num

def setLengthLeft (msg : Bytes) (length : Nat) : Bytes :=
  if msg.length < length then List.replicate (length - msg.length) 0 ++ msg
  else msg.drop (msg.length - length)

/-! ## Fields -/

/-- The 32-bit number; `now` is the timestamp of the call. -/
def timestamp.encode (now : Nat) (value : Option Nat) : Bytes :=
  let value := value.getD (now + 60)
  [UInt8.ofNat (value / 2 ^ 24), UInt8.ofNat (value / 2 ^ 16), UInt8.ofNat (value / 2 ^ 8),
    UInt8.ofNat value]

def timestamp.decode (bytes : Bytes) : Except MessageError Nat :=
  if bytes.length ≠ 4 then .error (.invalidTimestamp bytes) else .ok (bytesToNat bytes)

def address.encode (value : Option String) : Except MessageError Bytes :=
  let value := value.getD "undefined"
  match ipToBytes crypto.bytesToUnprefixedHex value.toList with
  | some bytes => .ok bytes
  | none => .error (.invalidAddress value)

def address.decode (bytes : Bytes) : Except MessageError String :=
  if bytes.length = 4 then .ok (String.ofList (ipToString bytes))
  else if bytes.length = 16 then .ok (String.ofList (ipToString bytes))
  else
    let str := crypto.bytesToUtf8 bytes
    if isV4Format str.toList || isV6Format str.toList then .ok str
    else .error (.invalidAddressBytes bytes)

/-- Shifts are those of 32-bit numbers. -/
def port.encode : Option Nat → Except MessageError Bytes
  | none => .ok []
  | some value =>
    if value % 2 ^ 32 / 2 ^ 16 > 0 then .error (.invalidPort value)
    else .ok [UInt8.ofNat (value % 2 ^ 32 / 2 ^ 8), UInt8.ofNat value]

def port.decode (bytes : Bytes) : Except MessageError (Option Nat) :=
  if bytes.length = 0 then .ok none else (bytesToInt bytes).map some

def endpoint.encode (obj : PeerInfo) : Except MessageError (List Rlp.Item) := do
  let address ← address.encode crypto obj.address
  let udpPort ← port.encode obj.udpPort
  let tcpPort ← port.encode obj.tcpPort
  return [.bytes address, .bytes udpPort, .bytes tcpPort]

/-- An entry of the payload that is a byte string. -/
def bytesAt (payload : List Rlp.Item) (i : Nat) : Except MessageError Bytes :=
  match payload[i]? with
  | some (.bytes b) => .ok b
  | _ => .error .malformed

/-- An entry of the payload that is an array. -/
def listAt (payload : List Rlp.Item) (i : Nat) : Except MessageError (List Rlp.Item) :=
  match payload[i]? with
  | some (.list l) => .ok l
  | _ => .error .malformed

def endpoint.decode (payload : List Rlp.Item) : Except MessageError PeerInfo := do
  let address ← address.decode crypto (← bytesAt payload 0)
  let udpPort ← port.decode (← bytesAt payload 1)
  let tcpPort ← port.decode (← bytesAt payload 2)
  return ⟨none, some address, udpPort, tcpPort, none⟩

/-! ## Messages -/

structure OutPing where
  version : Nat
  from' : PeerInfo
  to' : PeerInfo
  timestamp : Option Nat
  deriving DecidableEq

structure OutPong where
  to' : PeerInfo
  hash : Bytes
  timestamp : Option Nat
  deriving DecidableEq

structure OutFindNeighbours where
  id : Bytes
  timestamp : Option Nat
  deriving DecidableEq

structure InNeighbours where
  peers : List PeerInfo
  timestamp : Option Nat
  deriving DecidableEq

def ping.encode (now : Nat) (obj : OutPing) : Except MessageError (List Rlp.Item) := do
  let version ← intToBytes obj.version
  let sender ← endpoint.encode crypto obj.from'
  let receiver ← endpoint.encode crypto obj.to'
  return [.bytes version, .list sender, .list receiver, .bytes (timestamp.encode now obj.timestamp)]

def ping.decode (payload : List Rlp.Item) : Except MessageError OutPing := do
  let version ← bytesToInt (← bytesAt payload 0)
  let sender ← endpoint.decode crypto (← listAt payload 1)
  let receiver ← endpoint.decode crypto (← listAt payload 2)
  let timestamp ← timestamp.decode (← bytesAt payload 3)
  return ⟨version, sender, receiver, some timestamp⟩

def pong.encode (now : Nat) (obj : OutPong) : Except MessageError (List Rlp.Item) := do
  let receiver ← endpoint.encode crypto obj.to'
  return [.list receiver, .bytes obj.hash, .bytes (timestamp.encode now obj.timestamp)]

def pong.decode (payload : List Rlp.Item) : Except MessageError OutPong := do
  let receiver ← endpoint.decode crypto (← listAt payload 0)
  let hash ← bytesAt payload 1
  let timestamp ← timestamp.decode (← bytesAt payload 2)
  return ⟨receiver, hash, some timestamp⟩

def findneighbours.encode (now : Nat) (obj : OutFindNeighbours) : List Rlp.Item :=
  [.bytes obj.id, .bytes (timestamp.encode now obj.timestamp)]

def findneighbours.decode (payload : List Rlp.Item) : Except MessageError OutFindNeighbours := do
  let id ← bytesAt payload 0
  let timestamp ← timestamp.decode (← bytesAt payload 1)
  return ⟨id, some timestamp⟩

def neighbours.encodePeer (peer : PeerInfo) : Except MessageError Rlp.Item := do
  let ep ← endpoint.encode crypto peer
  match peer.id with
  | none => .error .missingId
  | some id => return .list (ep ++ [.bytes id])

def neighbours.encode (now : Nat) (obj : InNeighbours) : Except MessageError (List Rlp.Item) := do
  let peers ← obj.peers.mapM (neighbours.encodePeer crypto)
  return [.list peers, .bytes (timestamp.encode now obj.timestamp)]

def neighbours.decodePeer : Rlp.Item → Except MessageError PeerInfo
  | .bytes _ => .error .malformed
  | .list data => do
    if data.length < 4 then .error .invalidPeerData
    let endpointData ← endpoint.decode crypto (data.take 3)
    let id ← bytesAt data 3
    return { endpointData with id := some id }

def neighbours.decode (payload : List Rlp.Item) : Except MessageError InNeighbours := do
  let peers ← (← listAt payload 0).mapM (neighbours.decodePeer crypto)
  let timestamp ← timestamp.decode (← bytesAt payload 1)
  return ⟨peers, some timestamp⟩

inductive MessageTypeName where
  | ping | pong | findneighbours | neighbours
  deriving DecidableEq, Repr

def MessageTypeName.byName : MessageTypeName → UInt8
  | .ping => 0x01
  | .pong => 0x02
  | .findneighbours => 0x03
  | .neighbours => 0x04

def MessageTypeName.byType (type : UInt8) : Option MessageTypeName :=
  if type = 0x01 then some .ping
  else if type = 0x02 then some .pong
  else if type = 0x03 then some .findneighbours
  else if type = 0x04 then some .neighbours
  else none

/-- The data of a message, under the name of its type. -/
inductive MessageData where
  | ping (data : OutPing)
  | pong (data : OutPong)
  | findneighbours (data : OutFindNeighbours)
  | neighbours (data : InNeighbours)
  deriving DecidableEq

def MessageData.typename : MessageData → MessageTypeName
  | .ping _ => .ping
  | .pong _ => .pong
  | .findneighbours _ => .findneighbours
  | .neighbours _ => .neighbours

def messages.encode (now : Nat) : MessageData → Except MessageError (List Rlp.Item)
  | .ping data => ping.encode crypto now data
  | .pong data => pong.encode crypto now data
  | .findneighbours data => .ok (findneighbours.encode now data)
  | .neighbours data => neighbours.encode crypto now data

def messages.decode (typename : MessageTypeName) (payload : List Rlp.Item) :
    Except MessageError MessageData :=
  match typename with
  | .ping => (ping.decode crypto payload).map .ping
  | .pong => (pong.decode crypto payload).map .pong
  | .findneighbours => (findneighbours.decode payload).map .findneighbours
  | .neighbours => (neighbours.decode crypto payload).map .neighbours

/-! ## Frames -/

def encode (now : Nat) (data : MessageData) (privateKey : Bytes) : Except MessageError Bytes := do
  let encodedMsg ← messages.encode crypto now data
  let typedata := data.typename.byName :: Rlp.encode (.list encodedMsg)
  let sighash := crypto.keccak256 typedata
  let sig := crypto.sign sighash privateKey
  let hashdata := setLengthLeft (bigIntToBytes sig.r) 32 ++ setLengthLeft (bigIntToBytes sig.s) 32 ++
    [UInt8.ofNat sig.recovery] ++ typedata
  return crypto.keccak256 hashdata ++ hashdata

structure DecodedMessage where
  typename : MessageTypeName
  data : MessageData
  publicKey : Bytes
  hash : Bytes

def unstrictDecode (value : Bytes) : Except MessageError (List Rlp.Item) :=
  match Rlp.decodeStream value with
  | .error e => .error (.rlp e)
  | .ok (.list l, _) => .ok l
  | .ok (.bytes _, _) => .error .malformed

def decode (bytes : Bytes) : Except MessageError DecodedMessage := do
  let hash := crypto.keccak256 (bytes.drop 32)
  if bytes.take 32 ≠ hash then
    .error (.hashMismatch (bytes.take 32) hash)
  let typedata := bytes.drop 97
  match typedata.head?.bind MessageTypeName.byType with
  | none => .error (.invalidType typedata.head?)
  | some typename =>
    let data ← messages.decode crypto typename (← unstrictDecode (typedata.drop 1))
    let sighash := crypto.keccak256 typedata
    let signature := (bytes.drop 32).take 64
    let recoverId := (bytes[96]?.getD 0).toNat
    match crypto.ecdsaRecover signature recoverId sighash with
    | none => .error .recovery
    | some publicKey => return ⟨typename, data, publicKey, bytes.take 32⟩

end Message
