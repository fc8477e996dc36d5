-- SUMMARY: The handshake packets: what one side creates the other parses, and both derive the same frame ciphers and MACs.
import TsEthereum.P2p.Frames

/-!
# Handshake packets

The EIP-8 packets from creation to parsing, for primitives that are correct: both
sides of a key exchange come to the same secret, a signature gives its key back and
a tag verifies.
-/

open List Option Bool

namespace Rlpx

open Rlp Program

/-- What the primitives promise for valid private keys. -/
structure Crypto.Correct (c : Crypto) (Valid : Bytes → Prop) : Prop where
  /-- An uncompressed public key is its tag and two coordinates. -/
  publicKey {k : Bytes} : Valid k → ∃ id, id.length = 64 ∧ c.getPublicKey k = 4 :: id
  ecdh {k k' : Bytes} : Valid k → Valid k' → ∃ x, x.length = 32 ∧
    c.ecdhX (c.getPublicKey k) k' = some x ∧ c.ecdhX (c.getPublicKey k') k = some x
  recover {msg k : Bytes} : msg.length = 32 → Valid k →
    c.ecdsaRecover (setLengthLeft (bigIntToBytes (c.sign msg k).r) 32 ++
      setLengthLeft (bigIntToBytes (c.sign msg k).s) 32)
      (some (UInt8.ofNat (c.sign msg k).recovery)) msg = some (c.getPublicKey k)
  signature {msg k : Bytes} : msg.length = 32 → Valid k →
    (c.sign msg k).r < 2 ^ 256 ∧ (c.sign msg k).s < 2 ^ 256
  keccak : c.Keccak
  hmac (key data : Bytes) : (c.hmacSha256 key data).length = 32

/-- The random bytes of a call: a private key and an initialisation vector. -/
def Draw.Ok (Valid : Bytes → Prop) (draw : Draw) : Prop :=
  Valid draw.privateKey ∧ draw.iv.length = 16

/-- The padding of an EIP-8 packet is 100 to 250 bytes long. -/
def PadOk (pad : Bytes) : Prop := 100 ≤ pad.length ∧ pad.length ≤ 250

/-! ## Keys and lengths -/

theorem length_setLengthLeft (msg : Bytes) (n : Nat) : (setLengthLeft msg n).length = n := by
  unfold setLengthLeft
  split
  · rw [length_append, length_replicate]
    exact Nat.sub_add_cancel (Nat.le_of_lt ‹_›)
  · rw [length_drop]
    exact Nat.sub_sub_self (Nat.le_of_not_lt ‹_›)

theorem length_xor {a b : Bytes} {n : Nat} (ha : a.length = n) (hb : b.length = n) :
    (xor a b).length = n := by
  rw [xor, length_zipWith, ha, hb, Nat.min_self]

/-- A number of two bytes is written as two bytes. -/
theorem length_intToBytes_two {n : Nat} (hlow : 256 ≤ n) (hhigh : n < 2 ^ 16) :
    (intToBytes n).length = 2 := by
  have hle : (intToBytes n).length ≤ 2 := length_numberBytes (k := 1) hhigh (n + 1) []
  have hvalue := bytesToNat_intToBytes n
  match hbytes : intToBytes n with
  | [] =>
    rw [hbytes] at hvalue
    exact absurd (hvalue ▸ hlow) (by decide)
  | [b] =>
    rw [hbytes] at hvalue
    have hb : bytesToNat [b] = b.toNat := Nat.zero_add _
    have := b.toNat_lt
    omega
  | [_, _] => rfl
  | _ :: _ :: _ :: _ =>
    rw [hbytes] at hle
    exact absurd hle (by simp only [length_cons]; omega)

/-- The three parts of an encrypted message, as the receiver cuts them. -/
theorem packet_slices {pk tag : Bytes} (hpk : pk.length = 65) (htag : tag.length = 32)
    (dataIV : Bytes) :
    (pk ++ dataIV ++ tag).take 65 = pk ∧
      ((pk ++ dataIV ++ tag).take ((pk ++ dataIV ++ tag).length - 32)).drop 65 = dataIV ∧
      (pk ++ dataIV ++ tag).drop ((pk ++ dataIV ++ tag).length - 32) = tag := by
  have hlen : (pk ++ dataIV ++ tag).length - 32 = (pk ++ dataIV).length := by
    rw [length_append, htag, Nat.add_sub_cancel]
  refine ⟨?_, ?_, ?_⟩
  · rw [append_assoc, take_left' hpk]
  · rw [hlen, take_left, drop_left' hpk]
  · rw [hlen, drop_left]

namespace Crypto.Correct

variable {c : Crypto} {Valid : Bytes → Prop} (h : c.Correct Valid)

include h

variable {k : Bytes}

theorem length_publicKey (hk : Valid k) : (c.getPublicKey k).length = 65 := by
  obtain ⟨id, hid, hkey⟩ := h.publicKey hk
  rw [hkey, length_cons, hid]

/-- The node id of a key, from which the key comes back. -/
theorem pk2id_publicKey (hk : Valid k) :
    (pk2id c (c.getPublicKey k)).length = 64 ∧
      id2pk (pk2id c (c.getPublicKey k)) = c.getPublicKey k := by
  have hlen := h.length_publicKey hk
  obtain ⟨id, hid, hkey⟩ := h.publicKey hk
  have hpk : pk2id c (c.getPublicKey k) = id := by
    unfold pk2id
    rw [if_neg (by rw [hlen]; decide), hkey]
    rfl
  rw [hpk]
  exact ⟨hid, hkey.symm⟩

/-- Whoever has the private key reads what was encrypted for its public key. -/
theorem encrypt {draw : Draw} {e : ECIES} (hk : Valid k) (hdraw : draw.Ok Valid)
    (hkey : e.remotePublicKey = some (c.getPublicKey k)) (data : Bytes) (shared : Option Bytes) :
    ∃ tail, e.encryptMessage c draw data shared = .ok (some (4 :: tail)) ∧
      tail.length = data.length + 112 ∧
      ∀ e' : ECIES, e'.privateKey = k → e'.decryptMessage c (4 :: tail) shared = .ok data := by
  obtain ⟨id, hid, hpublic⟩ := h.publicKey hdraw.1
  obtain ⟨x, -, hx, hx'⟩ := h.ecdh hk hdraw.1
  generalize hmaterial : ECIES.concatKDF c x 32 = key
  generalize hencrypted : xorStream (c.aes128ctr (key.take 16) draw.iv) 0 data = encrypted
  generalize htag : c.hmacSha256 (c.sha256 ((key.drop 16).take 16))
    (draw.iv ++ encrypted ++ shared.getD []) = tag
  have htagLength : tag.length = 32 := htag ▸ h.hmac _ _
  have hlength : encrypted.length = data.length := by rw [← hencrypted, length_xorStream]
  have hsplit : 4 :: (id ++ (draw.iv ++ encrypted) ++ tag) =
      c.getPublicKey draw.privateKey ++ (draw.iv ++ encrypted) ++ tag := by
    rw [hpublic, cons_append, cons_append]
  obtain ⟨hfirst, hmiddle, hlast⟩ :=
    packet_slices (h.length_publicKey hdraw.1) htagLength (draw.iv ++ encrypted)
  refine ⟨id ++ (draw.iv ++ encrypted) ++ tag, ?_, ?_, ?_⟩
  · simp only [ECIES.encryptMessage, hkey, hx, hmaterial, hencrypted, htag, hsplit]
  · simp only [length_append, hid, hdraw.2, hlength, htagLength]
    omega
  · intro e' hprivate
    rw [hsplit]
    have hhead : (c.getPublicKey draw.privateKey ++ (draw.iv ++ encrypted) ++ tag).take 1 = [4] := by
      rw [← hsplit]
      rfl
    have hiv : (draw.iv ++ encrypted).take 16 = draw.iv := take_left' hdraw.2
    have hbody : (draw.iv ++ encrypted).drop 16 = encrypted := drop_left' hdraw.2
    simp only [ECIES.decryptMessage, hhead, hfirst, hmiddle, hlast, hprivate, hx', hmaterial, htag,
      hiv, hbody, assertEq_self, bind, Except.bind]
    rw [← hencrypted, xorStream_xorStream]

end Crypto.Correct

/-! ## EIP-8 packets -/

/-- A packet that starts with the length of what follows, and is `first` long at least. -/
structure EIP8Packet (first : Nat) (packet : Bytes) : Prop where
  size : bytesToInt (packet.take 2) = .ok (packet.length - 2)
  long : first ≤ packet.length
  positive : 2 ≤ packet.length

theorem EIP8Packet.checkSize {first : Nat} {packet : Bytes} (h : EIP8Packet first packet)
    (msg : String) : ECIES.checkSize packet msg = .ok () := by
  simp only [ECIES.checkSize, h.size, bind, Except.bind, Nat.sub_add_cancel h.positive, if_true]

theorem unstrictDecode_encode (data : Rlp.Item) (pad : Bytes) (h : (encode data).length < 2 ^ 16) :
    unstrictDecode (encode data ++ pad) = .ok data := by
  simp only [unstrictDecode, decodeStream_append data pad (Nat.lt_trans h (by decide))]

section
variable {msgLength : Nat} {tail : Bytes} (htail : tail.length = msgLength + 112)
  (hlow : 256 ≤ msgLength + 113) (hhigh : msgLength + 113 < 2 ^ 16)

include hlow hhigh

theorem eip8_take : (intToBytes (msgLength + 113) ++ 4 :: tail).take 2 =
    intToBytes (msgLength + 113) :=
  take_left' (length_intToBytes_two hlow hhigh)

theorem eip8_drop : (intToBytes (msgLength + 113) ++ 4 :: tail).drop 2 = 4 :: tail :=
  drop_left' (length_intToBytes_two hlow hhigh)

include htail in
theorem eip8_packet {first : Nat} (hfirst : first ≤ msgLength + 115) :
    EIP8Packet first (intToBytes (msgLength + 113) ++ 4 :: tail) := by
  have hlength : (intToBytes (msgLength + 113) ++ 4 :: tail).length = msgLength + 115 := by
    rw [length_append, length_intToBytes_two hlow hhigh, length_cons, htail]
    omega
  refine ⟨?_, hlength ▸ hfirst, hlength ▸ Nat.le_add_left 2 _⟩
  rw [eip8_take hlow hhigh, hlength]
  exact bytesToInt_of_lt (bytesToNat_intToBytes _) (Nat.lt_trans hhigh (by decide))

end

namespace ECIES

variable {c : Crypto} {Valid : Bytes → Prop}

/-- A session whose keys belong together. -/
structure Ready (c : Crypto) (Valid : Bytes → Prop) (e : ECIES) : Prop where
  privateKey : Valid e.privateKey
  publicKey : e.publicKey = c.getPublicKey e.privateKey
  ephemeralPrivateKey : Valid e.ephemeralPrivateKey
  ephemeralPublicKey : e.ephemeralPublicKey = c.getPublicKey e.ephemeralPrivateKey
  nonce : e.nonce.length = 32

/-! ### Authentication -/

def authData (c : Crypto) (e : ECIES) (x : Bytes) : Rlp.Item :=
  let sig := authSignature c e x
  .list [
    .bytes (setLengthLeft (bigIntToBytes sig.r) 32 ++ setLengthLeft (bigIntToBytes sig.s) 32 ++
      [UInt8.ofNat sig.recovery]),
    .bytes (pk2id c e.publicKey),
    .bytes e.nonce,
    .bytes [4]]

/-- The responder's session, once it has parsed the initiator's packet. -/
def afterAuth (c : Crypto) (i : ECIES) (packet : Bytes) (r : ECIES) : ECIES :=
  { r with
    remoteInitMsg := some packet
    remotePublicKey := some i.publicKey
    remoteNonce := some i.nonce
    remoteEphemeralPublicKey := some i.ephemeralPublicKey
    ephemeralSharedSecret := c.ecdhX i.ephemeralPublicKey r.ephemeralPrivateKey }

theorem length_authSignature (sig : Signature) :
    (setLengthLeft (bigIntToBytes sig.r) 32 ++ setLengthLeft (bigIntToBytes sig.s) 32).length =
      64 := by
  rw [length_append, length_setLengthLeft, length_setLengthLeft]

variable {x : Bytes}

theorem length_authData {e : ECIES} (hid : (pk2id c e.publicKey).length = 64)
    (hnonce : e.nonce.length = 32) :
    162 ≤ (encode (authData c e x)).length ∧ (encode (authData c e x)).length ≤ 180 := by
  generalize hsig : setLengthLeft (bigIntToBytes (authSignature c e x).r) 32 ++
    setLengthLeft (bigIntToBytes (authSignature c e x).s) 32 ++
      [UInt8.ofNat (authSignature c e x).recovery] = sig
  have hlen : sig.length = 65 := by
    rw [← hsig, length_append, length_authSignature]
    rfl
  have hdata : encode (authData c e x) =
      encode (.list [.bytes sig, .bytes (pk2id c e.publicKey), .bytes e.nonce, .bytes [4]]) := by
    rw [← hsig]
    rfl
  have hlow := length_le_encodeBytes sig
  have hlow' := length_le_encodeBytes (pk2id c e.publicKey)
  have hlow'' := length_le_encodeBytes e.nonce
  have hhigh := length_encodeBytes_le (k := 1) (b := sig) (by rw [hlen]; decide)
  have hhigh' := length_encodeBytes_le (k := 1) (b := pk2id c e.publicKey) (by rw [hid]; decide)
  have hhigh'' := length_encodeBytes_le (k := 1) (b := e.nonce) (by rw [hnonce]; decide)
  have hfour : (encodeBytes [4]).length = 1 := by decide
  rw [hdata]
  simp only [encode, encodeAll, length_append, length_nil]
  generalize hpayload : (encodeBytes sig).length + ((encodeBytes (pk2id c e.publicKey)).length +
    ((encodeBytes e.nonce).length + ((encodeBytes [4]).length + 0))) = payload
  have hheader : (encodeLength payload 192).length ≤ 3 :=
    length_encodeLength_le (k := 1) (by omega) 192
  omega

variable {i : ECIES} {msg : Bytes}

theorem authBody_authData (h : c.Correct Valid) (hi : i.Ready c Valid)
    (hdecoded : unstrictDecode msg = .ok (authData c i x)) :
    authBody true msg = .ok {
      signature := setLengthLeft (bigIntToBytes (authSignature c i x).r) 32 ++
        setLengthLeft (bigIntToBytes (authSignature c i x).s) 32
      recoveryId := some (UInt8.ofNat (authSignature c i x).recovery)
      heId := none
      remotePublicKey := i.publicKey
      nonce := some i.nonce } := by
  have hsig := length_authSignature (authSignature c i x)
  simp only [authBody, true_eq_false, if_false, hdecoded, authData, bind, Except.bind,
    toUint8Array, take_left' hsig, hi.publicKey, (h.pk2id_publicKey hi.privateKey).2,
    head?_cons, map_some]
  rw [getElem?_append_right (Nat.le_of_eq hsig), hsig]
  rfl

variable {r : ECIES}

/-- The responder that decrypts the initiator's data knows its keys and its nonce. -/
theorem parseAuth_spec (h : c.Correct Valid) (hi : i.Ready c Valid) (hr : r.Ready c Valid)
    {first : Nat} {packet : Bytes} (hpacket : EIP8Packet first packet)
    (hdec : ∀ e : ECIES, e.privateKey = r.privateKey →
      e.decryptMessage c (packet.drop 2) (some (packet.take 2)) = .ok msg)
    (hdecoded : unstrictDecode msg = .ok (authData c i x)) (hxlen : x.length = 32)
    (hx : c.ecdhX i.publicKey r.privateKey = some x) (heip8 : r.gotEIP8Auth = true) :
    parseAuthEIP8 c packet r = (.ok (), afterAuth c i packet r) := by
  obtain ⟨secret, -, hsecret, -⟩ := h.ecdh hi.ephemeralPrivateKey hr.ephemeralPrivateKey
  have hrecover := h.recover (length_xor hxlen hi.nonce) hi.ephemeralPrivateKey
  have hdecrypt := hdec { r with remoteInitMsg := some packet, gotEIP8Auth := true } rfl
  have hwp : (parseAuthEIP8 c packet).wp (fun _ r' => r' = afterAuth c i packet r)
      (fun _ _ => False) r := by
    simp only [parseAuthEIP8, parseAuthPlain, wp_bind, hpacket.checkSize,
      wp_ofExcept_ok, wp_modify, wp_get, getD_some,
      take_append_drop, heip8, hdecrypt, authBody_authData h hi hdecoded, hx, authSignature,
      hrecover, hsecret]
    simp only [wp_pure, afterAuth, hi.ephemeralPublicKey, hsecret, heip8]
  obtain ⟨_, r', hrun, rfl⟩ := wp_total hwp
  exact hrun

variable {k : Bytes} {draw : Draw}

/-- The packet that the initiator creates, the responder parses. -/
theorem auth_spec (h : c.Correct Valid) (hi : i.Ready c Valid) (hk : Valid k)
    (hkey : i.remotePublicKey = some (c.getPublicKey k)) {pad : Bytes} (hdraw : draw.Ok Valid)
    (hpad : PadOk pad) :
    ∃ packet, createAuthEIP8 c draw pad i = (.ok (some packet), { i with initMsg := some packet }) ∧
      EIP8Packet 307 packet ∧
      ∀ r : ECIES, r.Ready c Valid → r.privateKey = k → r.gotEIP8Auth = true →
        parseAuthEIP8 c packet r = (.ok (), afterAuth c i packet r) := by
  obtain ⟨x, hxlen, hx, hx'⟩ := h.ecdh hk hi.privateKey
  have hlen := length_authData (c := c) (x := x) (hi.publicKey ▸ (h.pk2id_publicKey hi.privateKey).1)
    hi.nonce
  generalize hmsg : encode (authData c i x) ++ pad = msg
  have hmsgLength : msg.length = (encode (authData c i x)).length + pad.length := by
    rw [← hmsg, length_append]
  obtain ⟨hpadLow, hpadHigh⟩ := hpad
  have hlow : 256 ≤ msg.length + 113 := by omega
  have hhigh : msg.length + 113 < 2 ^ 16 := by omega
  obtain ⟨tail, henc, htail, hdec⟩ :=
    h.encrypt hk hdraw hkey msg (some (intToBytes (msg.length + 113)))
  have hpacket : EIP8Packet 307 (intToBytes (msg.length + 113) ++ 4 :: tail) :=
    eip8_packet htail hlow hhigh (by omega)
  refine ⟨intToBytes (msg.length + 113) ++ 4 :: tail, ?_, hpacket, ?_⟩
  · subst hmsg
    unfold authData at henc
    simp only [createAuthEIP8, hkey, hx, henc]
    rfl
  · intro r hr hprivate heip8
    have hdecoded : unstrictDecode msg = .ok (authData c i x) := by
      rw [← hmsg]
      exact unstrictDecode_encode _ pad (by omega)
    refine parseAuth_spec h hi hr hpacket (fun e he => ?_) hdecoded hxlen ?_ heip8
    · rw [eip8_take hlow hhigh, eip8_drop hlow hhigh]
      exact hdec e (he.trans hprivate)
    · rw [hi.publicKey, hprivate]
      exact hx'

theorem length_bigIntToBytes_le {n : Nat} (h : n < 2 ^ 256) : (bigIntToBytes n).length ≤ 32 :=
  length_numberBytes (k := 31) h (n + 1) []

/-- The plain packet starts with the tag of a public key, and is 307 bytes long at most. -/
theorem authNonEIP8_spec (h : c.Correct Valid) (hi : i.Ready c Valid) (hk : Valid k)
    (hkey : i.remotePublicKey = some (c.getPublicKey k)) (hdraw : draw.Ok Valid) :
    ∃ tail, createAuthNonEIP8 c draw i =
        (.ok (some (4 :: tail)), { i with initMsg := some (4 :: tail) }) ∧
      0 < tail.length ∧ tail.length ≤ 306 := by
  obtain ⟨x, hxlen, hx, -⟩ := h.ecdh hk hi.privateKey
  have hid := (h.pk2id_publicKey hi.privateKey).1
  obtain ⟨hr, hs⟩ := h.signature (length_xor hxlen hi.nonce) hi.ephemeralPrivateKey
  generalize hdata : bigIntToBytes (authSignature c i x).r ++ bigIntToBytes (authSignature c i x).s ++
    [UInt8.ofNat (authSignature c i x).recovery] ++ c.keccak256 (pk2id c i.ephemeralPublicKey) ++
    pk2id c i.publicKey ++ i.nonce ++ [0] = data
  have hlen : data.length ≤ 194 := by
    have hr' := length_bigIntToBytes_le hr
    have hs' := length_bigIntToBytes_le hs
    rw [← hdata]
    have hhash := h.keccak (pk2id c i.ephemeralPublicKey)
    simp only [length_append, hhash, hi.publicKey, hid, hi.nonce, authSignature,
      length_cons, length_nil]
    omega
  obtain ⟨tail, henc, htail, -⟩ := h.encrypt hk hdraw hkey data none
  refine ⟨tail, ?_, by omega, by omega⟩
  subst hdata
  simp only [createAuthNonEIP8, hkey, hx, henc]

/-! ### Acknowledgement -/

def ackData (c : Crypto) (e : ECIES) : Rlp.Item :=
  .list [.bytes (pk2id c e.ephemeralPublicKey), .bytes e.nonce, .bytes [4]]

/-- The initiator's session, once it knows the responder's nonce and ephemeral key. -/
def afterAck (c : Crypto) (r i : ECIES) : ECIES :=
  { i with
    remoteEphemeralPublicKey := some r.ephemeralPublicKey
    remoteNonce := some r.nonce
    ephemeralSharedSecret := c.ecdhX r.ephemeralPublicKey i.ephemeralPrivateKey }

theorem length_ackData {e : ECIES} (hid : (pk2id c e.ephemeralPublicKey).length = 64)
    (hnonce : e.nonce.length = 32) :
    97 ≤ (encode (ackData c e)).length ∧ (encode (ackData c e)).length ≤ 120 := by
  have hlow := length_le_encodeBytes (pk2id c e.ephemeralPublicKey)
  have hlow' := length_le_encodeBytes e.nonce
  have hhigh := length_encodeBytes_le (k := 1) (b := pk2id c e.ephemeralPublicKey) (by rw [hid]; decide)
  have hhigh' := length_encodeBytes_le (k := 1) (b := e.nonce) (by rw [hnonce]; decide)
  have hfour : (encodeBytes [4]).length = 1 := by decide
  simp only [ackData, encode, encodeAll, length_append, length_nil]
  generalize hpayload : (encodeBytes (pk2id c e.ephemeralPublicKey)).length +
    ((encodeBytes e.nonce).length + ((encodeBytes [4]).length + 0)) = payload
  have hheader : (encodeLength payload 192).length ≤ 3 :=
    length_encodeLength_le (k := 1) (by omega) 192
  omega

theorem ackBody_ackData (h : c.Correct Valid) (hr : r.Ready c Valid)
    (hdecoded : unstrictDecode msg = .ok (ackData c r)) :
    ackBody true msg = .ok (r.ephemeralPublicKey, some r.nonce) := by
  simp only [ackBody, true_eq_false, if_false, hdecoded, ackData, bind, Except.bind,
    toUint8Array, hr.ephemeralPublicKey, (h.pk2id_publicKey hr.ephemeralPrivateKey).2,
    head?_cons, map_some]

/-- The initiator that decrypts the responder's data sets its frames up with it. -/
theorem parseAck_spec (h : c.Correct Valid) (hi : i.Ready c Valid) (hr : r.Ready c Valid)
    {first : Nat} {packet : Bytes} (hpacket : EIP8Packet first packet)
    (hdec : ∀ e : ECIES, e.privateKey = i.privateKey →
      e.decryptMessage c (packet.drop 2) (some (packet.take 2)) = .ok msg)
    (hdecoded : unstrictDecode msg = .ok (ackData c r)) (heip8 : i.gotEIP8Ack = true) :
    parseAckEIP8 c packet i = (.ok (), (afterAck c r i).setupFrame c packet false) := by
  obtain ⟨secret, -, -, hsecret⟩ := h.ecdh hi.ephemeralPrivateKey hr.ephemeralPrivateKey
  have hwp : (parseAckEIP8 c packet).wp
      (fun _ i' => i' = (afterAck c r i).setupFrame c packet false) (fun _ _ => False) i := by
    simp only [parseAckEIP8, parseAckPlain, wp_bind, hpacket.checkSize,
      wp_ofExcept_ok, wp_modify, wp_get, getD_some,
      take_append_drop, hdec i rfl, heip8, ackBody_ackData h hr hdecoded]
    simp only [hr.ephemeralPublicKey, hsecret, wp_bind, wp_modify, afterAck, heip8]
  obtain ⟨_, i', hrun, rfl⟩ := wp_total hwp
  exact hrun

/-- The packet that the responder creates, the initiator parses; both set their frames up. -/
theorem ack_spec (h : c.Correct Valid) (hr : r.Ready c Valid) {auth : Bytes} (hk : Valid k)
    (hkey : r.remotePublicKey = some (c.getPublicKey k)) (hauth : r.remoteInitMsg = some auth)
    {pad : Bytes} (hdraw : draw.Ok Valid) (hpad : PadOk pad) :
    ∃ packet, createAckEIP8 c draw pad r =
        (.ok (some packet), ECIES.setupFrame c auth true { r with initMsg := some packet }) ∧
      EIP8Packet 210 packet ∧
      ∀ i : ECIES, i.Ready c Valid → i.privateKey = k → i.gotEIP8Ack = true →
        parseAckEIP8 c packet i = (.ok (), (afterAck c r i).setupFrame c packet false) := by
  have hlen := length_ackData (c := c)
    (hr.ephemeralPublicKey ▸ (h.pk2id_publicKey hr.ephemeralPrivateKey).1) hr.nonce
  generalize hmsg : encode (ackData c r) ++ pad = msg
  have hmsgLength : msg.length = (encode (ackData c r)).length + pad.length := by
    rw [← hmsg, length_append]
  obtain ⟨hpadLow, hpadHigh⟩ := hpad
  have hlow : 256 ≤ msg.length + 113 := by omega
  have hhigh : msg.length + 113 < 2 ^ 16 := by omega
  obtain ⟨tail, henc, htail, hdec⟩ :=
    h.encrypt hk hdraw hkey msg (some (intToBytes (msg.length + 113)))
  have hpacket : EIP8Packet 210 (intToBytes (msg.length + 113) ++ 4 :: tail) :=
    eip8_packet htail hlow hhigh (by omega)
  refine ⟨intToBytes (msg.length + 113) ++ 4 :: tail, ?_, hpacket, ?_⟩
  · subst hmsg
    unfold ackData at henc
    simp only [createAckEIP8, henc, finishAck, hauth]
    rfl
  · intro i hi hprivate heip8
    have hdecoded : unstrictDecode msg = .ok (ackData c r) := by
      rw [← hmsg]
      exact unstrictDecode_encode _ pad (by omega)
    refine parseAck_spec h hi hr hpacket (fun e he => ?_) hdecoded heip8
    rw [eip8_take hlow hhigh, eip8_drop hlow hhigh]
    exact hdec e (he.trans hprivate)

/-! ### Agreement -/

/-- What one side writes with is what the other reads with. -/
structure Paired (i r : ECIES) : Prop where
  aes : i.egressAes.isSome ∧ i.egressAes = r.ingressAes
  mac : i.egressMac.isSome ∧ i.egressMac = r.ingressMac
  aes' : r.egressAes.isSome ∧ r.egressAes = i.ingressAes
  mac' : r.egressMac.isSome ∧ r.egressMac = i.ingressMac

/-- Both sides derive the same ciphers and MACs from the two packets. -/
theorem setupFrame_paired (h : c.Correct Valid) (hi : i.Ready c Valid) (hr : r.Ready c Valid)
    {auth ack : Bytes} (hauth : i.initMsg = some auth) :
    Paired ((afterAck c r i).setupFrame c ack false)
      (ECIES.setupFrame c auth true { afterAuth c i auth r with initMsg := some ack }) := by
  obtain ⟨secret, -, hsecret, hsecret'⟩ := h.ecdh hi.ephemeralPrivateKey hr.ephemeralPrivateKey
  simp only [setupFrame, afterAck, afterAuth, hi.ephemeralPublicKey, hr.ephemeralPublicKey, hsecret,
    hsecret', hauth, false_eq_true, if_false, if_true]
  exact ⟨⟨rfl, rfl⟩, ⟨rfl, rfl⟩, ⟨rfl, rfl⟩, ⟨rfl, rfl⟩⟩

end ECIES
end Rlpx
