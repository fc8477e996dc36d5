-- SUMMARY: The ECIES session of an RLPx connection: handshake packets, frame ciphers and frame MACs.
import TsEthereum.Base.Program
import TsEthereum.Utils.Bytes

/-!
# The ECIES session

The two handshake packets in their plain and their EIP-8 form, and the ciphers and
MACs of the frames that come after. The primitives of `node:crypto` and of
`ethereum-cryptography` are parameters; the random bytes that a call draws are
arguments. A key, a nonce or a tag is a byte string of any length.
-/

namespace Rlpx

/-- What is thrown. -/
inductive Fault where
  /-- `assertEq` of two byte strings. -/
  | unequal (msg : String) (expected actual : Bytes)
  /-- `assertEq` of two numbers. -/
  | unequalNumber (msg : String) (expected : Nat) (actual : Option Nat)
  | typeError
  /-- A primitive rejects its input. -/
  | crypto
  | rlp (e : Rlp.RlpError)
  | exceeds53Bits
  | needHeader
  /-- A handler of a subprotocol throws. -/
  | handler
  deriving DecidableEq

structure Signature where
  r : Nat
  s : Nat
  recovery : Nat

/-- The primitives; a partial one throws where it has no result. -/
structure Crypto where
  /-- `secp256k1.getPublicKey(privateKey, false)`. -/
  getPublicKey : Bytes → Bytes
  /-- `publicKeyConvert(pk, false)`. -/
  publicKeyConvert : Bytes → Bytes
  /-- `ecdhX(publicKey, privateKey)`: the x coordinate of the product. -/
  ecdhX : Bytes → Bytes → Option Bytes
  /-- `secp256k1.sign(msg, privateKey)`. -/
  sign : Bytes → Bytes → Signature
  /-- `ecdsaRecover(signature, recoveryId, msg, false)`. -/
  ecdsaRecover : Bytes → Option UInt8 → Bytes → Option Bytes
  keccak256 : Bytes → Bytes
  sha256 : Bytes → Bytes
  /-- `createHmac('sha256', key)` of the data. -/
  hmacSha256 : Bytes → Bytes → Bytes
  /-- The byte of the `aes-128-ctr` key stream of a key and an IV at a position. -/
  aes128ctr : Bytes → Bytes → Nat → UInt8
  aes256ctr : Bytes → Bytes → Nat → UInt8
  /-- `createCipheriv('aes-256-ecb', key, '')` of a block. -/
  aes256ecb : Bytes → Bytes → Bytes

/-! ## Bytes -/

def bytesToNat (bytes : Bytes) : Nat := bytes.foldl (fun n b => 256 * n + b.toNat) 0

def bytesToInt (bytes : Bytes) : Except Fault Nat :=
  if bytesToNat bytes < 2 ^ 53 then .ok (bytesToNat bytes) else .error .exceeds53Bits

/-- The hexadecimal digits of a number, two to a byte. -/
def intToBytes (i : Nat) : Bytes := Rlp.numberToBytes i

def bigIntToBytes (num : Nat) : Bytes := Rlp.numberToBytes num

def setLengthLeft (msg : Bytes) (length : Nat) : Bytes :=
  if msg.length < length then List.replicate (length - msg.length) 0 ++ msg
  else msg.drop (msg.length - length)

def zfill (bytes : Bytes) (size : Nat) (leftpad : Bool) : Bytes :=
  if bytes.length ≥ size then bytes
  else
    let pad := List.replicate (size - bytes.length) 0
    if leftpad then pad ++ bytes else bytes ++ pad

def xor (a b : Bytes) : Bytes := List.zipWith (· ^^^ ·) a b

def assertEq (expected actual : Bytes) (msg : String) : Except Fault Unit :=
  if expected = actual then .ok () else .error (.unequal msg expected actual)

def id2pk (id : Bytes) : Bytes := 4 :: id

def pk2id (c : Crypto) (pk : Bytes) : Bytes :=
  (if pk.length = 33 then c.publicKeyConvert pk else pk).drop 1

/-- `RLP.decode(value, true).data`. -/
def unstrictDecode (value : Bytes) : Except Fault Rlp.Item :=
  match Rlp.decodeStream value with
  | .ok d => .ok d.1
  | .error e => .error (.rlp e)

/-! ## The key stream -/

/-- The bytes combined with the key stream from a position on. -/
def xorStream (stream : Nat → UInt8) : Nat → Bytes → Bytes
  | _, [] => []
  | n, b :: bs => (b ^^^ stream n) :: xorStream stream (n + 1) bs

/-- A `Decipheriv` of `aes-256-ctr`, which is the cipher too. -/
structure StreamCipher where
  key : Bytes
  iv : Bytes
  position : Nat
  deriving DecidableEq

def StreamCipher.update (c : Crypto) (aes : StreamCipher) (data : Bytes) : Bytes :=
  xorStream (c.aes256ctr aes.key aes.iv) aes.position data

def StreamCipher.advance (aes : StreamCipher) (data : Bytes) : StreamCipher :=
  { aes with position := aes.position + data.length }

/-! ## The frame MAC -/

/-- `_hash` is kept as the bytes that it has absorbed. -/
structure MAC where
  secret : Bytes
  hash : Bytes
  deriving DecidableEq

namespace MAC

def new (secret : Bytes) : MAC := ⟨secret, []⟩

def update (m : MAC) (data : Bytes) : MAC := { m with hash := m.hash ++ data }

def digest (c : Crypto) (m : MAC) : Bytes := (c.keccak256 m.hash).take 16

def updateHeader (c : Crypto) (m : MAC) (data : Bytes) : MAC :=
  let encrypted := c.aes256ecb m.secret (m.digest c)
  m.update (xor encrypted data)

def updateBody (c : Crypto) (m : MAC) (data : Bytes) : MAC :=
  let m := m.update data
  let prev := m.digest c
  let encrypted := c.aes256ecb m.secret prev
  m.update (xor encrypted prev)

end MAC

/-! ## The session -/

structure ECIES where
  privateKey : Bytes
  publicKey : Bytes
  remotePublicKey : Option Bytes
  nonce : Bytes
  remoteNonce : Option Bytes
  initMsg : Option Bytes
  remoteInitMsg : Option Bytes
  gotEIP8Auth : Bool
  gotEIP8Ack : Bool
  ingressAes : Option StreamCipher
  egressAes : Option StreamCipher
  ingressMac : Option MAC
  egressMac : Option MAC
  ephemeralPrivateKey : Bytes
  ephemeralPublicKey : Bytes
  remoteEphemeralPublicKey : Option Bytes
  ephemeralSharedSecret : Option Bytes
  bodySize : Option Nat

/-- The random bytes of `_encryptMessage`. -/
structure Draw where
  privateKey : Bytes
  iv : Bytes

namespace ECIES

/-- The nonce and the ephemeral key are drawn by the caller. -/
def new (c : Crypto) (privateKey id : Bytes) (remoteId : Option Bytes)
    (nonce ephemeralPrivateKey : Bytes) : ECIES where
  privateKey := privateKey
  publicKey := id2pk id
  remotePublicKey := remoteId.map id2pk
  nonce := nonce
  remoteNonce := none
  initMsg := none
  remoteInitMsg := none
  gotEIP8Auth := false
  gotEIP8Ack := false
  ingressAes := none
  egressAes := none
  ingressMac := none
  egressMac := none
  ephemeralPrivateKey := ephemeralPrivateKey
  ephemeralPublicKey := c.getPublicKey ephemeralPrivateKey
  remoteEphemeralPublicKey := none
  ephemeralSharedSecret := none
  bodySize := none

/-- The counter of `concatKDF` as `setUint32` writes it. -/
def uint32 (counter : Nat) : Bytes :=
  [UInt8.ofNat (counter / 2 ^ 24), UInt8.ofNat (counter / 2 ^ 16), UInt8.ofNat (counter / 2 ^ 8),
    UInt8.ofNat counter]

def concatKDF (c : Crypto) (keyMaterial : Bytes) (keyLength : Nat) : Bytes :=
  -- the loop runs while counter <= (keyLength + 7) / 64
  ((List.range ((keyLength + 7) / 64 + 1)).flatMap fun counter =>
    c.sha256 (uint32 (counter + 1) ++ keyMaterial)).take keyLength

def encryptMessage (c : Crypto) (draw : Draw) (e : ECIES) (data : Bytes)
    (sharedMacData : Option Bytes) : Except Fault (Option Bytes) :=
  match e.remotePublicKey with
  | none => .ok none
  | some remotePublicKey =>
    match c.ecdhX remotePublicKey draw.privateKey with
    | none => .error .crypto
    | some x =>
      let key := concatKDF c x 32
      let ekey := key.take 16
      let mKey := c.sha256 ((key.drop 16).take 16)
      let encryptedData := xorStream (c.aes128ctr ekey draw.iv) 0 data
      let dataIV := draw.iv ++ encryptedData
      let tag := c.hmacSha256 mKey (dataIV ++ sharedMacData.getD [])
      .ok (some (c.getPublicKey draw.privateKey ++ dataIV ++ tag))

def decryptMessage (c : Crypto) (e : ECIES) (data : Bytes) (sharedMacData : Option Bytes) :
    Except Fault Bytes := do
  assertEq (data.take 1) [4] "wrong ecies header (possible cause: EIP8 upgrade)"
  let publicKey := data.take 65
  let dataIV := (data.take (data.length - 32)).drop 65
  let tag := data.drop (data.length - 32)
  match c.ecdhX publicKey e.privateKey with
  | none => .error .crypto
  | some x =>
    let key := concatKDF c x 32
    let ekey := key.take 16
    let mKey := c.sha256 ((key.drop 16).take 16)
    assertEq (c.hmacSha256 mKey (dataIV ++ sharedMacData.getD [])) tag "should have valid tag"
    .ok (xorStream (c.aes128ctr ekey (dataIV.take 16)) 0 (dataIV.drop 16))

def setupFrame (c : Crypto) (remoteData : Bytes) (incoming : Bool) (e : ECIES) : ECIES :=
  match e.remoteNonce, e.ephemeralSharedSecret with
  | some remoteNonce, some ephemeralSharedSecret =>
    let nonceMaterial := if incoming then e.nonce ++ remoteNonce else remoteNonce ++ e.nonce
    let hNonce := c.keccak256 nonceMaterial
    let iv := List.replicate 16 0
    let sharedSecret := c.keccak256 (ephemeralSharedSecret ++ hNonce)
    let aesSecret := c.keccak256 (ephemeralSharedSecret ++ sharedSecret)
    let macSecret := c.keccak256 (ephemeralSharedSecret ++ aesSecret)
    { e with
      ingressAes := some ⟨aesSecret, iv, 0⟩
      egressAes := some ⟨aesSecret, iv, 0⟩
      ingressMac := some ((MAC.new macSecret).update (xor macSecret e.nonce ++ remoteData))
      egressMac := some (match e.initMsg with
        | none => MAC.new macSecret
        | some initMsg => (MAC.new macSecret).update (xor macSecret remoteNonce ++ initMsg)) }
  | _, _ => e

/-! ### The initiator's packet -/

/-- The signature bytes of both authentication packets. -/
def authSignature (c : Crypto) (e : ECIES) (x : Bytes) : Signature :=
  c.sign (xor x e.nonce) e.ephemeralPrivateKey

def createAuthEIP8 (c : Crypto) (draw : Draw) (pad : Bytes) :
    Program Fault ECIES (Option Bytes) := fun e =>
  match e.remotePublicKey with
  | none => (.ok none, e)
  | some remotePublicKey =>
    match c.ecdhX remotePublicKey e.privateKey with
    | none => (.error .crypto, e)
    | some x =>
      let sig := authSignature c e x
      let data := Rlp.Item.list [
        .bytes (setLengthLeft (bigIntToBytes sig.r) 32 ++ setLengthLeft (bigIntToBytes sig.s) 32 ++
          [UInt8.ofNat sig.recovery]),
        .bytes (pk2id c e.publicKey),
        .bytes e.nonce,
        .bytes [4]]
      let authMsg := Rlp.encode data ++ pad
      let overheadLength := 113
      let sharedMacData := intToBytes (authMsg.length + overheadLength)
      match e.encryptMessage c draw authMsg (some sharedMacData) with
      | .error f => (.error f, e)
      | .ok none => (.ok none, e)
      | .ok (some encryptedMsg) =>
        let initMsg := sharedMacData ++ encryptedMsg
        (.ok (some initMsg), { e with initMsg := some initMsg })

def createAuthNonEIP8 (c : Crypto) (draw : Draw) : Program Fault ECIES (Option Bytes) := fun e =>
  match e.remotePublicKey with
  | none => (.ok none, e)
  | some remotePublicKey =>
    match c.ecdhX remotePublicKey e.privateKey with
    | none => (.error .crypto, e)
    | some x =>
      let sig := authSignature c e x
      let data := bigIntToBytes sig.r ++ bigIntToBytes sig.s ++ [UInt8.ofNat sig.recovery] ++
        c.keccak256 (pk2id c e.ephemeralPublicKey) ++ pk2id c e.publicKey ++ e.nonce ++ [0]
      match e.encryptMessage c draw data none with
      | .error f => (.error f, e)
      | .ok initMsg => (.ok initMsg, { e with initMsg := initMsg })

/-- What an authentication packet says. -/
structure AuthBody where
  signature : Bytes
  recoveryId : Option UInt8
  heId : Option Bytes
  remotePublicKey : Bytes
  nonce : Option Bytes

def authBody (gotEIP8Auth : Bool) (decrypted : Bytes) : Except Fault AuthBody := do
  if gotEIP8Auth = false then
    if decrypted.length ≠ 194 then
      .error (.unequalNumber "invalid packet length" decrypted.length (some 194))
    else
      .ok {
        signature := decrypted.take 64
        recoveryId := decrypted[64]?
        heId := some ((decrypted.take 97).drop 65)
        remotePublicKey := id2pk ((decrypted.take 161).drop 97)
        nonce := some ((decrypted.take 193).drop 161) }
  else
    match ← unstrictDecode decrypted with
    | .list (.bytes sig :: id :: rest) =>
      .ok {
        signature := sig.take 64
        recoveryId := sig[64]?
        heId := none
        remotePublicKey := id2pk (toUint8Array id)
        nonce := rest.head?.map toUint8Array }
    | _ => .error .typeError

def parseAuthPlain (c : Crypto) (data : Bytes) (sharedMacData : Option Bytes) :
    Program Fault ECIES Unit := do
  Program.modify fun e => { e with remoteInitMsg := some (sharedMacData.getD [] ++ data) }
  let e ← Program.get
  let decrypted ← Program.ofExcept (e.decryptMessage c data sharedMacData)
  let body ← Program.ofExcept (authBody e.gotEIP8Auth decrypted)
  Program.modify fun e => { e with
    remotePublicKey := some body.remotePublicKey, remoteNonce := body.nonce }
  match c.ecdhX body.remotePublicKey e.privateKey, body.nonce with
  | none, _ => Program.throw .crypto
  | some _, none => Program.throw .typeError
  | some x, some nonce =>
    match c.ecdsaRecover body.signature body.recoveryId (xor x nonce) with
    | none => Program.throw .crypto
    | some remoteEphemeralPublicKey =>
      Program.modify fun e => { e with remoteEphemeralPublicKey := some remoteEphemeralPublicKey }
      match c.ecdhX remoteEphemeralPublicKey e.ephemeralPrivateKey with
      | none => Program.throw .crypto
      | some secret =>
        Program.modify fun e => { e with ephemeralSharedSecret := some secret }
        match body.heId with
        | none => pure ()
        | some heId =>
          Program.ofExcept (assertEq (c.keccak256 (pk2id c remoteEphemeralPublicKey)) heId
            "the hash of the ephemeral key should match")

/-- The length that an EIP-8 packet starts with, checked. -/
def checkSize (data : Bytes) (msg : String) : Except Fault Unit := do
  let size := (← bytesToInt (data.take 2)) + 2
  if data.length = size then .ok () else .error (.unequalNumber msg data.length (some size))

def parseAuthEIP8 (c : Crypto) (data : Bytes) : Program Fault ECIES Unit := do
  Program.ofExcept (checkSize data "message length different from specified size (EIP8) ")
  parseAuthPlain c (data.drop 2) (some (data.take 2))

/-! ### The responder's packet -/

/-- The tail of both `createAck` functions. -/
def finishAck (c : Crypto) : Program Fault ECIES (Option Bytes) := fun e =>
  match e.remoteInitMsg with
  | none => (.ok none, e)
  | some remoteInitMsg => (.ok e.initMsg, e.setupFrame c remoteInitMsg true)

def createAckEIP8 (c : Crypto) (draw : Draw) (pad : Bytes) :
    Program Fault ECIES (Option Bytes) := fun e =>
  let data := Rlp.Item.list [.bytes (pk2id c e.ephemeralPublicKey), .bytes e.nonce, .bytes [4]]
  let ackMsg := Rlp.encode data ++ pad
  let overheadLength := 113
  let sharedMacData := intToBytes (ackMsg.length + overheadLength)
  match e.encryptMessage c draw ackMsg (some sharedMacData) with
  | .error f => (.error f, e)
  | .ok none => (.ok none, e)
  | .ok (some encryptedMsg) =>
    finishAck c { e with initMsg := some (sharedMacData ++ encryptedMsg) }

def createAckOld (c : Crypto) (draw : Draw) : Program Fault ECIES (Option Bytes) := fun e =>
  let data := pk2id c e.ephemeralPublicKey ++ e.nonce ++ [0]
  match e.encryptMessage c draw data none with
  | .error f => (.error f, e)
  | .ok initMsg => finishAck c { e with initMsg := initMsg }

/-- The ephemeral key and the nonce of an acknowledgement. -/
def ackBody (gotEIP8Ack : Bool) (decrypted : Bytes) : Except Fault (Bytes × Option Bytes) := do
  if gotEIP8Ack = false then
    if decrypted.length ≠ 97 then
      .error (.unequalNumber "invalid packet length" decrypted.length (some 97))
    else if decrypted[96]? ≠ some 0 then
      .error (.unequalNumber "invalid postfix" ((decrypted[96]?.map UInt8.toNat).getD 0) (some 0))
    else
      .ok (id2pk (decrypted.take 64), some ((decrypted.take 96).drop 64))
  else
    match ← unstrictDecode decrypted with
    | .list (key :: rest) => .ok (id2pk (toUint8Array key), rest.head?.map toUint8Array)
    | _ => .error .typeError

def parseAckPlain (c : Crypto) (data : Bytes) (sharedMacData : Option Bytes) :
    Program Fault ECIES Unit := do
  let e ← Program.get
  let decrypted ← Program.ofExcept (e.decryptMessage c data sharedMacData)
  let body ← Program.ofExcept (ackBody e.gotEIP8Ack decrypted)
  Program.modify fun e => { e with
    remoteEphemeralPublicKey := some body.1, remoteNonce := body.2 }
  match c.ecdhX body.1 e.ephemeralPrivateKey with
  | none => Program.throw .crypto
  | some secret =>
    Program.modify fun e => { e with ephemeralSharedSecret := some secret }
    Program.modify fun e => e.setupFrame c (sharedMacData.getD [] ++ data) false

def parseAckEIP8 (c : Crypto) (data : Bytes) : Program Fault ECIES Unit := do
  Program.ofExcept
    (checkSize data "message length different from specified size (EIP8) parseAckEIP8")
  parseAckPlain c (data.drop 2) (some (data.take 2))

/-! ### Frames -/

def createBlockHeader (c : Crypto) (size : Nat) : Program Fault ECIES (Option Bytes) := fun e =>
  let bufSize := zfill (intToBytes size) 3 true
  let headerData := Rlp.encode (.list [.bytes [], .bytes []])
  let header := zfill (bufSize ++ headerData) 16 false
  match e.egressAes with
  | none => (.ok none, e)
  | some aes =>
    let e := { e with egressAes := some (aes.advance header) }
    let header := aes.update c header
    match e.egressMac with
    | none => (.ok none, e)
    | some mac =>
      let mac := mac.updateHeader c header
      (.ok (some (header ++ mac.digest c)), { e with egressMac := some mac })

def parseHeader (c : Crypto) (data : Bytes) : Program Fault ECIES (Option Nat) := fun e =>
  let header := data.take 16
  let mac := (data.take 32).drop 16
  match e.ingressMac with
  | none => (.ok none, e)
  | some ingressMac =>
    let ingressMac := ingressMac.updateHeader c header
    let e := { e with ingressMac := some ingressMac }
    match assertEq (ingressMac.digest c) mac "Invalid MAC" with
    | .error f => (.error f, e)
    | .ok () =>
      match e.ingressAes with
      | none => (.ok none, e)
      | some aes =>
        let e := { e with ingressAes := some (aes.advance header) }
        match bytesToInt ((aes.update c header).take 3) with
        | .error f => (.error f, e)
        | .ok size => (.ok (some size), { e with bodySize := some size })

/-- `zfill(data, Math.ceil(data.length / 16) * 16, false)`. -/
def padBody (data : Bytes) : Bytes := zfill data ((data.length + 15) / 16 * 16) false

def createBody (c : Crypto) (data : Bytes) : Program Fault ECIES (Option Bytes) := fun e =>
  let data := padBody data
  match e.egressAes with
  | none => (.ok none, e)
  | some aes =>
    let e := { e with egressAes := some (aes.advance data) }
    let encryptedData := aes.update c data
    match e.egressMac with
    | none => (.ok none, e)
    | some mac =>
      let mac := mac.updateBody c encryptedData
      (.ok (some (encryptedData ++ mac.digest c)), { e with egressMac := some mac })

def parseBody (c : Crypto) (data : Bytes) : Program Fault ECIES (Option Bytes) := fun e =>
  match e.bodySize with
  | none => (.error .needHeader, e)
  | some size =>
    let body := data.take (data.length - 16)
    let mac := data.drop (data.length - 16)
    match e.ingressMac with
    | none => (.ok none, e)
    | some ingressMac =>
      let ingressMac := ingressMac.updateBody c body
      let e := { e with ingressMac := some ingressMac }
      match assertEq (ingressMac.digest c) mac "Invalid MAC" with
      | .error f => (.error f, e)
      | .ok () =>
        let e := { e with bodySize := none }
        match e.ingressAes with
        | none => (.ok none, e)
        | some aes =>
          (.ok (some ((aes.update c body).take size)),
            { e with ingressAes := some (aes.advance body) })

end ECIES
end Rlpx
