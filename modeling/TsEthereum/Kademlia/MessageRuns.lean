-- SUMMARY: Decoding an encoded discovery message returns its type, its data and the public key of its signer.
import TsEthereum.Kademlia.Message

/-!
# Decoding encoded messages

The data of a message is what its payload carries: an endpoint has no id, and no peer has
a vector clock.
-/

open List Option

namespace Message

open IpText MessageData

variable (crypto : Crypto)

/-! ## Numbers -/

theorem bytesToNat_numberToBytes (n : Nat) : bytesToNat (Rlp.numberToBytes n) = n :=
  Rlp.foldl_numberBytes (Nat.lt_succ_self n) []

theorem bytesToInt_intToBytes {i : Nat} (h : i < 2 ^ 53) :
    ∃ bytes, intToBytes i = .ok bytes ∧ bytesToInt bytes = .ok i := by
  refine ⟨Rlp.numberToBytes i, if_pos h, ?_⟩
  unfold bytesToInt
  rw [bytesToNat_numberToBytes, if_pos h]

theorem foldl_zeros (n : Nat) (bytes : Bytes) :
    bytesToNat (List.replicate n 0 ++ bytes) = bytesToNat bytes := by
  unfold bytesToNat
  induction n with
  | zero => rfl
  | succ n ih => exact ih

/-- The padded bytes of a number of 256 bits. -/
theorem setLengthLeft_spec {n : Nat} (h : n < 2 ^ 256) :
    (setLengthLeft (bigIntToBytes n) 32).length = 32 ∧
      bytesToNat (setLengthLeft (bigIntToBytes n) 32) = n := by
  have hlen : (bigIntToBytes n).length ≤ 32 := by
    have hbytes := Rlp.length_numberBytes (k := 31) (n := n) (by omega) (n + 1) []
    exact hbytes
  unfold setLengthLeft
  split
  · rename_i hshort
    rw [foldl_zeros, length_append, length_replicate]
    exact ⟨by omega, bytesToNat_numberToBytes n⟩
  · rw [show (bigIntToBytes n).length - 32 = 0 by omega, drop_zero]
    exact ⟨by omega, bytesToNat_numberToBytes n⟩

/-! ## Fields -/

theorem timestamp_decode_encode (now : Nat) {value : Nat} (h : value < 2 ^ 32) :
    timestamp.decode (timestamp.encode now (some value)) = .ok value := by
  have hvalue : bytesToNat (timestamp.encode now (some value)) = value := by
    simp only [timestamp.encode, getD_some, bytesToNat, foldl_cons, foldl_nil,
      UInt8.toNat_ofNat']
    omega
  unfold timestamp.decode
  rw [if_neg (fun h => h rfl), hvalue]

theorem port_decode_encode {value : Option Nat} (h : ∀ n, value = some n → n ≤ 65535) :
    ∃ bytes, port.encode value = .ok bytes ∧ port.decode bytes = .ok value := by
  cases value with
  | none => exact ⟨[], rfl, rfl⟩
  | some n =>
    have hn := h n rfl
    refine ⟨[UInt8.ofNat (n % 2 ^ 32 / 2 ^ 8), UInt8.ofNat n], if_neg (by omega), ?_⟩
    have hvalue : bytesToNat [UInt8.ofNat (n % 2 ^ 32 / 2 ^ 8), UInt8.ofNat n] = n := by
      simp only [bytesToNat, foldl_cons, foldl_nil, UInt8.toNat_ofNat']
      omega
    simp only [port.decode, bytesToInt, hvalue, length_cons, length_nil]
    rw [if_neg (by omega), if_pos (by omega)]
    rfl

/-- A canonical IPv4 text, or what `ipToString` writes for 16 bytes. -/
def AddressOk (address : Option String) : Prop :=
  ∃ ip, address = some ip ∧ (CanonicalV4 ip.toList ∨
    ∃ bytes : Bytes, bytes.length = 16 ∧ ip.toList = ipToString bytes)

theorem address_decode_encode {ip : Option String} (h : AddressOk ip) :
    ∃ bytes text, address.encode crypto ip = .ok bytes ∧ address.decode crypto bytes = .ok text ∧
      ip = some text := by
  obtain ⟨ip, rfl, hv4 | ⟨bytes, hlen, htext⟩⟩ := h
  · obtain ⟨bytes, hlen, hbytes, hstring⟩ := ipToBytes_canonical crypto.bytesToUnprefixedHex hv4
    refine ⟨bytes, ip, ?_, ?_, rfl⟩
    · simp only [address.encode, getD_some, hbytes]
    · rw [address.decode, if_pos hlen, hstring, String.ofList_toList]
  · have hbytes := ipToBytes_ipToString crypto.bytesToUnprefixedHex hlen
    rw [← htext] at hbytes
    refine ⟨bytes, ip, ?_, ?_, rfl⟩
    · simp only [address.encode, getD_some, hbytes]
    · rw [address.decode, if_neg (by omega), if_pos hlen, ← htext, String.ofList_toList]

structure EndpointOk (peer : PeerInfo) : Prop where
  address : AddressOk peer.address
  udpPort : ∀ n, peer.udpPort = some n → n ≤ 65535
  tcpPort : ∀ n, peer.tcpPort = some n → n ≤ 65535

/-- What an endpoint in a payload carries. -/
def endpointOf (peer : PeerInfo) : PeerInfo := { peer with id := none, vectorClock := none }

theorem endpoint_decode_encode {peer : PeerInfo} (h : EndpointOk peer) :
    ∃ a u t, endpoint.encode crypto peer = .ok [.bytes a, .bytes u, .bytes t] ∧
      endpoint.decode crypto [.bytes a, .bytes u, .bytes t] = .ok (endpointOf peer) := by
  obtain ⟨a, text, ha, ha', htext⟩ := address_decode_encode crypto h.address
  obtain ⟨u, hu, hu'⟩ := port_decode_encode h.udpPort
  obtain ⟨t, ht, ht'⟩ := port_decode_encode h.tcpPort
  refine ⟨a, u, t, ?_, ?_⟩
  · simp only [endpoint.encode, ha, hu, ht, bind, Except.bind, pure, Except.pure]
  · simp only [endpoint.decode, bytesAt, getElem?_cons_zero, getElem?_cons_succ, ha', hu',
      ht', bind, Except.bind, pure, Except.pure, endpointOf, htext]

/-! ## Messages -/

def TimestampOk (timestamp : Option Nat) : Prop := ∃ value < 2 ^ 32, timestamp = some value

/-- The messages that can be encoded, with timestamps. -/
def MessageData.Ok : MessageData → Prop
  | .ping data => data.version < 2 ^ 53 ∧ EndpointOk data.from' ∧ EndpointOk data.to' ∧
      TimestampOk data.timestamp
  | .pong data => EndpointOk data.to' ∧ TimestampOk data.timestamp
  | .findneighbours data => TimestampOk data.timestamp
  | .neighbours data => (∀ peer ∈ data.peers, EndpointOk peer ∧ peer.id.isSome = true) ∧
      TimestampOk data.timestamp

/-- What a payload carries of the data. -/
def MessageData.carried : MessageData → MessageData
  | .ping data => .ping { data with from' := endpointOf data.from', to' := endpointOf data.to' }
  | .pong data => .pong { data with to' := endpointOf data.to' }
  | .findneighbours data => .findneighbours data
  | .neighbours data =>
    .neighbours { data with peers := data.peers.map (fun peer => { peer with vectorClock := none }) }

/-- Data without fields that a payload does not carry. -/
def MessageData.Bare : MessageData → Prop
  | .ping data => endpointOf data.from' = data.from' ∧ endpointOf data.to' = data.to'
  | .pong data => endpointOf data.to' = data.to'
  | .findneighbours _ => True
  | .neighbours data => ∀ peer ∈ data.peers, peer.vectorClock = none

theorem MessageData.carried_of_bare {data : MessageData} (h : data.Bare) : data.carried = data := by
  cases data with
  | ping data =>
    obtain ⟨hfrom, hto⟩ := h
    simp only [carried, hfrom, hto]
  | pong data =>
    have hto : endpointOf data.to' = data.to' := h
    simp only [carried, hto]
  | findneighbours data => rfl
  | neighbours data =>
    have hpeers : data.peers.map (fun peer => { peer with vectorClock := none }) = data.peers := by
      refine (map_congr_left (fun peer hpeer => ?_)).trans (map_id _)
      rw [← h peer hpeer]
      rfl
    simp only [carried, hpeers]

theorem neighbours_peer {peer : PeerInfo} (h : EndpointOk peer) (hid : peer.id.isSome = true) :
    ∃ item, neighbours.encodePeer crypto peer = .ok item ∧
      neighbours.decodePeer crypto item = .ok { peer with vectorClock := none } := by
  obtain ⟨a, u, t, hencode, hdecode⟩ := endpoint_decode_encode crypto h
  obtain ⟨id, hid⟩ := isSome_iff_exists.mp hid
  refine ⟨.list [.bytes a, .bytes u, .bytes t, .bytes id], ?_, ?_⟩
  · simp only [neighbours.encodePeer, hencode, hid, bind, Except.bind, pure, Except.pure]
    rfl
  · have htake : [Rlp.Item.bytes a, .bytes u, .bytes t, .bytes id].take 3 =
        [.bytes a, .bytes u, .bytes t] := rfl
    have hid' : bytesAt [Rlp.Item.bytes a, .bytes u, .bytes t, .bytes id] 3 = .ok id := rfl
    simp only [neighbours.decodePeer, htake, hdecode, hid', bind, Except.bind, pure, Except.pure]
    rw [if_neg (by simp)]
    simp only [endpointOf, hid]

theorem neighbours_peers {peers : List PeerInfo}
    (h : ∀ peer ∈ peers, EndpointOk peer ∧ peer.id.isSome = true) :
    ∃ items, peers.mapM (neighbours.encodePeer crypto) = .ok items ∧
      items.mapM (neighbours.decodePeer crypto) =
        .ok (peers.map (fun peer => { peer with vectorClock := none })) := by
  induction peers with
  | nil => exact ⟨[], rfl, rfl⟩
  | cons peer peers ih =>
    rw [forall_mem_cons] at h
    obtain ⟨item, hencode, hdecode⟩ := neighbours_peer crypto h.1.1 h.1.2
    obtain ⟨items, hencodes, hdecodes⟩ := ih h.2
    refine ⟨item :: items, ?_, ?_⟩
    · simp only [mapM_cons, hencode, hencodes, bind, Except.bind, pure, Except.pure]
    · simp only [mapM_cons, hdecode, hdecodes, bind, Except.bind, pure, Except.pure,
        map_cons]

/-- A decoded payload has what it carries. -/
theorem messages_decode_encode (now : Nat) {data : MessageData} (h : data.Ok) :
    ∃ payload, messages.encode crypto now data = .ok payload ∧
      messages.decode crypto data.typename payload = .ok data.carried := by
  cases data with
  | ping data =>
    obtain ⟨hversion, hfrom, hto, value, hvalue, htimestamp⟩ := h
    obtain ⟨v, hv, hv'⟩ := bytesToInt_intToBytes hversion
    obtain ⟨a, u, t, hencode, hdecode⟩ := endpoint_decode_encode crypto hfrom
    obtain ⟨a', u', t', hencode', hdecode'⟩ := endpoint_decode_encode crypto hto
    have htime := timestamp_decode_encode now hvalue
    refine ⟨[.bytes v, .list [.bytes a, .bytes u, .bytes t], .list [.bytes a', .bytes u', .bytes t'],
      .bytes (timestamp.encode now data.timestamp)], ?_, ?_⟩
    · simp only [messages.encode, ping.encode, hv, hencode, hencode', bind, Except.bind, pure, Except.pure]
    · simp only [typename, messages.decode, ping.decode, bytesAt, listAt,
        getElem?_cons_zero, getElem?_cons_succ, hv', hdecode, hdecode', htimestamp, htime,
        bind, Except.bind, pure, Except.pure, Except.map, carried]
  | pong data =>
    obtain ⟨hto, value, hvalue, htimestamp⟩ := h
    obtain ⟨a, u, t, hencode, hdecode⟩ := endpoint_decode_encode crypto hto
    have htime := timestamp_decode_encode now hvalue
    refine ⟨[.list [.bytes a, .bytes u, .bytes t], .bytes data.hash,
      .bytes (timestamp.encode now data.timestamp)], ?_, ?_⟩
    · simp only [messages.encode, pong.encode, hencode, bind, Except.bind, pure, Except.pure]
    · simp only [typename, messages.decode, pong.decode, bytesAt, listAt,
        getElem?_cons_zero, getElem?_cons_succ, hdecode, htimestamp, htime, bind,
        Except.bind, pure, Except.pure, Except.map, carried]
  | findneighbours data =>
    obtain ⟨value, hvalue, htimestamp⟩ := h
    have htime := timestamp_decode_encode now hvalue
    refine ⟨_, rfl, ?_⟩
    simp only [typename, messages.decode, findneighbours.decode, findneighbours.encode,
      bytesAt, getElem?_cons_zero, getElem?_cons_succ, htimestamp, htime, bind, Except.bind,
      pure, Except.pure, Except.map, carried]
    rw [← htimestamp]
  | neighbours data =>
    obtain ⟨hpeers, value, hvalue, htimestamp⟩ := h
    obtain ⟨items, hencode, hdecode⟩ := neighbours_peers crypto hpeers
    have htime := timestamp_decode_encode now hvalue
    refine ⟨[.list items, .bytes (timestamp.encode now data.timestamp)], ?_, ?_⟩
    · simp only [messages.encode, neighbours.encode, hencode, bind, Except.bind, pure, Except.pure]
    · simp only [typename, messages.decode, neighbours.decode, bytesAt, listAt,
        getElem?_cons_zero, getElem?_cons_succ, hdecode, htimestamp, htime, bind,
        Except.bind, pure, Except.pure, Except.map, carried]

/-! ## Frames -/

/-- The hash function and the signatures of a key as they are documented: hashes have 32
bytes, and from the numbers of a signature, in 32 bytes each, the public key is recovered. -/
structure Correct (privateKey publicKey : Bytes) : Prop where
  hash_length : ∀ b, (crypto.keccak256 b).length = 32
  r_lt : ∀ hash, (crypto.sign hash privateKey).r < 2 ^ 256
  s_lt : ∀ hash, (crypto.sign hash privateKey).s < 2 ^ 256
  recovery_lt : ∀ hash, (crypto.sign hash privateKey).recovery < 4
  recover : ∀ hash r s, r.length = 32 → s.length = 32 →
    bytesToNat r = (crypto.sign hash privateKey).r → bytesToNat s = (crypto.sign hash privateKey).s →
    crypto.ecdsaRecover (r ++ s) (crypto.sign hash privateKey).recovery hash = some publicKey

theorem byType_byName (typename : MessageTypeName) :
    MessageTypeName.byType typename.byName = some typename := by
  cases typename <;> rfl

/-- A decoded frame has the type and the signer of the message, and all the data that its
payload carries. -/
theorem decode_signed {privateKey publicKey : Bytes} (hcrypto : Correct crypto privateKey publicKey)
    (now : Nat) {data : MessageData} (hdata : data.Ok)
    (hmax : ∀ payload, messages.encode crypto now data = .ok payload →
      (Rlp.encode (.list payload)).length < 2 ^ 53) :
    ∃ bytes hash, encode crypto now data privateKey = .ok bytes ∧
      decode crypto bytes = .ok ⟨data.typename, data.carried, publicKey, hash⟩ ∧
      (data.Bare → data.carried = data) := by
  obtain ⟨payload, hencode, hdecode⟩ := messages_decode_encode crypto now hdata
  have hstream := (Rlp.decode_stream_encode (.list payload) [] (hmax payload hencode)).2
  rw [append_nil] at hstream
  generalize htypedata : data.typename.byName :: Rlp.encode (.list payload) = typedata
  generalize hsig : crypto.sign (crypto.keccak256 typedata) privateKey = sig
  have hrlt := hcrypto.r_lt (crypto.keccak256 typedata)
  have hslt := hcrypto.s_lt (crypto.keccak256 typedata)
  rw [hsig] at hrlt hslt
  obtain ⟨hrlen, hr⟩ := setLengthLeft_spec hrlt
  obtain ⟨hslen, hs⟩ := setLengthLeft_spec hslt
  have hrecover := hcrypto.recover (crypto.keccak256 typedata) _ _ hrlen hslen
    (by rw [hr, hsig]) (by rw [hs, hsig])
  have hrecovery := hcrypto.recovery_lt (crypto.keccak256 typedata)
  rw [hsig] at hrecover hrecovery
  generalize hrbytes : setLengthLeft (bigIntToBytes sig.r) 32 = r at hrlen hrecover
  generalize hsbytes : setLengthLeft (bigIntToBytes sig.s) 32 = s at hslen hrecover
  generalize hhashdata : r ++ s ++ [UInt8.ofNat sig.recovery] ++ typedata = hashdata
  have hhash := hcrypto.hash_length hashdata
  refine ⟨crypto.keccak256 hashdata ++ hashdata, crypto.keccak256 hashdata, ?_, ?_,
    carried_of_bare⟩
  · simp only [encode, hencode, bind, Except.bind, pure, Except.pure, htypedata, hsig, hrbytes,
      hsbytes, hhashdata]
  · have hdata32 : (crypto.keccak256 hashdata ++ hashdata).drop 32 = hashdata := drop_left' hhash
    have hhash32 : (crypto.keccak256 hashdata ++ hashdata).take 32 = crypto.keccak256 hashdata :=
      take_left' hhash
    have hrs : (r ++ s).length = 64 := by rw [length_append, hrlen, hslen]
    have hsignature : hashdata.take 64 = r ++ s := by
      rw [← hhashdata, append_assoc]
      exact take_left' hrs
    have htypedata97 : (crypto.keccak256 hashdata ++ hashdata).drop 97 = typedata := by
      rw [show 97 = 32 + 65 from rfl, ← drop_drop, hdata32, ← hhashdata]
      exact drop_left' (by rw [length_append, hrs]; rfl)
    have hrecoverId : (crypto.keccak256 hashdata ++ hashdata)[96]? = some (UInt8.ofNat sig.recovery) := by
      rw [show 96 = 32 + 64 from rfl, ← getElem?_drop, hdata32, ← hhashdata, append_assoc,
        getElem?_append_right hrs.le, hrs]
      rfl
    have hrecoverNat : (UInt8.ofNat sig.recovery).toNat = sig.recovery := by
      rw [UInt8.toNat_ofNat']
      omega
    have hunstrict : unstrictDecode (typedata.drop 1) = .ok payload := by
      rw [← htypedata, drop_succ_cons, drop_zero, unstrictDecode, hstream]
    have htype : typedata.head?.bind MessageTypeName.byType = some data.typename := by
      rw [← htypedata, head?_cons, bind_some, byType_byName]
    simp only [decode, hdata32, hhash32, htypedata97, htype, hunstrict, hsignature, hrecoverId,
      getD_some, hrecoverNat, hrecover, hdecode, ne_eq, not_true_eq_false, if_false, bind,
      Except.bind, pure, Except.pure]

/-! ## A pong to an IPv6 address -/

/-- The private key 1. -/
def samplePrivateKey : Bytes := List.replicate 31 0 ++ [1]

def samplePublicKey : Bytes :=
  [4, 121, 190, 102, 126, 249, 220, 187, 172, 85, 160, 98, 149, 206, 135, 11, 7, 2, 155, 252, 219,
   45, 206, 40, 217, 89, 242, 129, 91, 22, 248, 23, 152, 72, 58, 218, 119, 38, 163, 196, 101, 93,
   164, 251, 252, 14, 17, 8, 168, 253, 23, 180, 72, 166, 133, 84, 25, 156, 71, 208, 143, 251, 16,
   212, 184]

def sampleTypedata : Bytes :=
  [2, 222, 213, 144, 32, 1, 13, 184, 0, 0, 0, 0, 0, 0, 0, 0, 0, 0, 0, 1, 130, 118, 95, 128, 130,
   1, 2, 132, 0, 0, 0, 7]

def sampleHash : Bytes :=
  [83, 96, 87, 55, 94, 121, 145, 50, 143, 200, 217, 167, 166, 182, 133, 55, 149, 235, 188, 148,
   87, 163, 224, 73, 156, 142, 139, 98, 160, 238, 0, 99]

/-- The hashes and the signature of the sample. -/
def sampleCrypto : Crypto where
  bytesToUnprefixedHex b := String.ofList
    (b.flatMap (fun x => [Nat.digitChar (x.toNat / 16), Nat.digitChar (x.toNat % 16)]))
  bytesToUtf8 b := String.ofList (b.map (fun x => Char.ofNat x.toNat))
  keccak256 b :=
    if b = sampleTypedata then sampleHash
    else
      [66, 180, 47, 94, 54, 215, 102, 122, 165, 35, 246, 206, 129, 69, 239, 204, 78, 141, 121, 29,
        192, 123, 149, 233, 50, 223, 226, 244, 159, 70, 160, 253]
  sign _ _ :=
    ⟨15114856659102522020637112509893114146569100070087253526792690666975850520350,
      39838563932526810052554090285414399132835166525933661816622537719957890182608, 1⟩
  ecdsaRecover _ _ _ := some samplePublicKey

def samplePong : MessageData :=
  .pong ⟨⟨none, some "2001:db8::1", some 30303, none, none⟩, [1, 2], some 7⟩

theorem decode_signed_pong : ∃ bytes hash,
    encode sampleCrypto 0 samplePong samplePrivateKey = .ok bytes ∧
      decode sampleCrypto bytes = .ok ⟨.pong, samplePong, samplePublicKey, hash⟩ := by
  have hcrypto : Correct sampleCrypto samplePrivateKey samplePublicKey := by
    refine ⟨fun b => ?_, fun _ => ?_, fun _ => ?_, fun _ => ?_, fun _ _ _ _ _ _ _ => rfl⟩
    · dsimp only [sampleCrypto]
      split <;> rfl
    · dsimp only [sampleCrypto]
      decide
    · dsimp only [sampleCrypto]
      decide
    · dsimp only [sampleCrypto]
      decide
  have hbytes : "2001:db8::1".toList =
      ipToString [0x20, 0x01, 0x0d, 0xb8, 0, 0, 0, 0, 0, 0, 0, 0, 0, 0, 0, 1] := by decide +kernel
  have hendpoint : EndpointOk ⟨none, some "2001:db8::1", some 30303, none, none⟩ := by
    refine ⟨⟨_, rfl, .inr ⟨_, rfl, hbytes⟩⟩, fun n hn => ?_, fun n hn => nomatch hn⟩
    rw [← some.inj hn]
    decide
  have hpayload : (messages.encode sampleCrypto 0 samplePong).toOption = some
      [.list [.bytes [0x20, 0x01, 0x0d, 0xb8, 0, 0, 0, 0, 0, 0, 0, 0, 0, 0, 0, 1], .bytes [118, 95],
        .bytes []], .bytes [1, 2], .bytes [0, 0, 0, 7]] := by decide +kernel
  have hmax : ∀ payload, messages.encode sampleCrypto 0 samplePong = .ok payload →
      (Rlp.encode (.list payload)).length < 2 ^ 53 := by
    intro payload hencode
    rw [hencode] at hpayload
    obtain rfl := some.inj hpayload
    decide
  have hdata : samplePong.Ok := ⟨hendpoint, 7, by decide, rfl⟩
  obtain ⟨bytes, hash, hencode, hdecode, -⟩ := decode_signed sampleCrypto hcrypto 0 hdata hmax
  exact ⟨bytes, hash, hencode, hdecode⟩

end Message
