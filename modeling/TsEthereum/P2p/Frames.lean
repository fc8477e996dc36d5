-- SUMMARY: One frame: what the sender's session writes, the receiver's session reads back, and both move on alike.
import TsEthereum.P2p.Ecies

/-!
# Frames

A direction of a connection is a cipher and a MAC, which the sender advances as
egress and the receiver as ingress. The header and the body of a message are
functions of that pair; writing and reading them leaves both sides with the same one.
-/

open List

namespace Rlpx

open StreamCipher

/-! ## Key stream and padding -/

@[simp] theorem length_xorStream (stream : Nat → UInt8) (n : Nat) (data : Bytes) :
    (xorStream stream n data).length = data.length := by
  induction data generalizing n with
  | nil => rfl
  | cons b bs ih => exact congrArg Nat.succ (ih (n + 1))

/-- The key stream cancels itself. -/
theorem xorStream_xorStream (stream : Nat → UInt8) (n : Nat) (data : Bytes) :
    xorStream stream n (xorStream stream n data) = data := by
  induction data generalizing n with
  | nil => rfl
  | cons b bs ih =>
    simp only [xorStream, UInt8.xor_assoc, UInt8.xor_self, UInt8.xor_zero, ih]

theorem bytesToNat_zeros (n : Nat) (bytes : Bytes) :
    bytesToNat (List.replicate n 0 ++ bytes) = bytesToNat bytes := by
  unfold bytesToNat
  induction n with
  | zero => rfl
  | succ n ih => exact ih

theorem bytesToNat_intToBytes (i : Nat) : bytesToNat (intToBytes i) = i :=
  Rlp.foldl_numberBytes (Nat.lt_succ_self i) []

theorem length_zfill {bytes : Bytes} {size : Nat} (leftpad : Bool) (h : bytes.length ≤ size) :
    (zfill bytes size leftpad).length = size := by
  unfold zfill
  split
  · exact Nat.le_antisymm h ‹_›
  · cases leftpad <;> simp only [Bool.false_eq_true, if_false, if_true, length_append,
      length_replicate] <;> omega

theorem zfill_left_value (bytes : Bytes) (size : Nat) :
    bytesToNat (zfill bytes size true) = bytesToNat bytes := by
  unfold zfill
  split
  · rfl
  · exact bytesToNat_zeros _ bytes

/-- Padding on the right starts with what was padded. -/
theorem zfill_right_eq (bytes : Bytes) (size : Nat) :
    ∃ pad, zfill bytes size false = bytes ++ pad := by
  unfold zfill
  split
  · exact ⟨[], (append_nil bytes).symm⟩
  · exact ⟨_, rfl⟩

theorem zfill_right_take (bytes : Bytes) (size : Nat) :
    (zfill bytes size false).take bytes.length = bytes := by
  obtain ⟨pad, h⟩ := zfill_right_eq bytes size
  exact h ▸ take_left

theorem bytesToInt_of_lt {bytes : Bytes} {n : Nat} (h : bytesToNat bytes = n)
    (hn : n < 2 ^ 53) : bytesToInt bytes = .ok n := by
  unfold bytesToInt
  rw [h, if_pos hn]

@[simp] theorem assertEq_self (bytes : Bytes) (msg : String) :
    assertEq bytes bytes msg = .ok () := if_pos rfl

/-! ## One direction -/

/-- The cipher and the MAC of one direction. -/
structure Wire where
  aes : StreamCipher
  mac : MAC

namespace Wire

variable (c : Crypto)

/-- The plain header of a frame. -/
def plainHeader (size : Nat) : Bytes :=
  zfill (zfill (intToBytes size) 3 true ++ Rlp.encode (.list [.bytes [], .bytes []])) 16 false

/-- The wire after a header, and the header's bytes. -/
def header (w : Wire) (size : Nat) : Wire × Bytes :=
  let encrypted := w.aes.update c (plainHeader size)
  let mac := w.mac.updateHeader c encrypted
  (⟨w.aes.advance (plainHeader size), mac⟩, encrypted ++ mac.digest c)

/-- The wire after a body, and the body's bytes. -/
def body (w : Wire) (msg : Bytes) : Wire × Bytes :=
  let encrypted := w.aes.update c (ECIES.padBody msg)
  let mac := w.mac.updateBody c encrypted
  (⟨w.aes.advance (ECIES.padBody msg), mac⟩, encrypted ++ mac.digest c)

/-- The wire after a message, and the message's bytes. -/
def frame (w : Wire) (msg : Bytes) : Wire × Bytes :=
  let h := w.header c msg.length
  let b := h.1.body c msg
  (b.1, h.2 ++ b.2)

/-- The frames of a list of messages. -/
def frames : Wire → List Bytes → Wire × Bytes
  | w, [] => (w, [])
  | w, msg :: msgs =>
    let f := w.frame c msg
    let rest := frames f.1 msgs
    (rest.1, f.2 ++ rest.2)

theorem frames_cons (w : Wire) (msg : Bytes) (msgs : List Bytes) :
    w.frames c (msg :: msgs) =
      (((w.frame c msg).1.frames c msgs).1,
        (w.frame c msg).2 ++ ((w.frame c msg).1.frames c msgs).2) := rfl

theorem frame_bytes (w : Wire) (msg : Bytes) :
    (w.frame c msg).2 =
      (w.header c msg.length).2 ++ ((w.header c msg.length).1.body c msg).2 := rfl

end Wire

/-- The sender writes on this wire. -/
structure Writes (e : ECIES) (w : Wire) : Prop where
  aes : e.egressAes = some w.aes
  mac : e.egressMac = some w.mac

/-- The receiver reads from this wire. -/
structure Reads (e : ECIES) (w : Wire) : Prop where
  aes : e.ingressAes = some w.aes
  mac : e.ingressMac = some w.mac

/-- What `keccak256` promises about the length of its result. -/
def Crypto.Keccak (c : Crypto) : Prop := ∀ b, (c.keccak256 b).length = 32

namespace Wire

variable {c : Crypto} (hkeccak : c.Keccak)

include hkeccak in
theorem length_digest (m : MAC) : (m.digest c).length = 16 := by
  simp only [MAC.digest, length_take, hkeccak m.hash]
  rfl

variable {size : Nat}

theorem length_size (h : size < 2 ^ 24) :
    (zfill (intToBytes size) 3 true).length = 3 := by
  apply length_zfill
  exact Rlp.length_numberBytes (k := 2) h (size + 1) []

theorem length_plainHeader (h : size < 2 ^ 24) : (plainHeader size).length = 16 := by
  apply length_zfill
  rw [length_append, length_size h]
  decide

include hkeccak in
theorem length_header (w : Wire) (h : size < 2 ^ 24) :
    (w.header c size).2.length = 32 := by
  simp only [header, update, length_append, length_xorStream,
    length_plainHeader h, length_digest hkeccak]

/-- The padded length of a body. -/
def padded (size : Nat) : Nat := (size + 15) / 16 * 16

theorem length_padBody (msg : Bytes) : (ECIES.padBody msg).length = padded msg.length := by
  apply length_zfill
  omega

include hkeccak in
theorem length_body (w : Wire) (msg : Bytes) :
    (w.body c msg).2.length = padded msg.length + 16 := by
  simp only [body, update, length_append, length_xorStream, length_padBody,
    length_digest hkeccak]

/-- The first three bytes of the header are the size. -/
theorem plainHeader_size (h : size < 2 ^ 24) :
    bytesToInt ((plainHeader size).take 3) = .ok size := by
  have hfirst : (plainHeader size).take 3 = zfill (intToBytes size) 3 true := by
    obtain ⟨pad, hpad⟩ := zfill_right_eq
      (zfill (intToBytes size) 3 true ++ Rlp.encode (.list [.bytes [], .bytes []])) 16
    rw [plainHeader, hpad, append_assoc]
    exact take_left' (length_size h)
  rw [hfirst]
  apply bytesToInt_of_lt
  · rw [zfill_left_value, bytesToNat_intToBytes]
  · exact Nat.lt_trans h (by decide)

end Wire

/-! ## The session's four frame functions -/

namespace ECIES

variable {c : Crypto}

variable {e : ECIES} {w : Wire}

theorem createBlockHeader_eq (hw : Writes e w) (size : Nat) :
    createBlockHeader c size e =
      (.ok (some (w.header c size).2), { e with
        egressAes := some (w.header c size).1.aes
        egressMac := some (w.header c size).1.mac }) := by
  simp only [createBlockHeader, hw.aes, hw.mac]
  rfl

theorem createBody_eq (hw : Writes e w) (msg : Bytes) :
    createBody c msg e =
      (.ok (some (w.body c msg).2), { e with
        egressAes := some (w.body c msg).1.aes
        egressMac := some (w.body c msg).1.mac }) := by
  simp only [createBody, hw.aes, hw.mac]
  rfl

theorem parseHeader_eq (hkeccak : c.Keccak) (hr : Reads e w) {size : Nat} (hsize : size < 2 ^ 24) :
    parseHeader c (w.header c size).2 e =
      (.ok (some size), { e with
        ingressAes := some (w.header c size).1.aes
        ingressMac := some (w.header c size).1.mac
        bodySize := some size }) := by
  have hplain := Wire.length_plainHeader hsize
  have hlen : (w.aes.update c (Wire.plainHeader size)).length = 16 := by
    rw [update, length_xorStream, hplain]
  have hhead : (w.header c size).2.take 16 = w.aes.update c (Wire.plainHeader size) :=
    take_left' hlen
  have htag : ((w.header c size).2.take 32).drop 16 = (w.header c size).1.mac.digest c := by
    rw [take_of_length_le (Nat.le_of_eq (Wire.length_header hkeccak w hsize))]
    exact drop_left' hlen
  -- the receiver's key stream undoes the sender's
  have hback : w.aes.update c (w.aes.update c (Wire.plainHeader size)) = Wire.plainHeader size :=
    xorStream_xorStream _ _ _
  have hmac : w.mac.updateHeader c (w.aes.update c (Wire.plainHeader size)) =
      (w.header c size).1.mac := rfl
  have hadvance : w.aes.advance (w.aes.update c (Wire.plainHeader size)) =
      (w.header c size).1.aes := by
    simp only [advance, hlen, Wire.header, hplain]
  simp only [parseHeader, hr.aes, hr.mac, hhead, htag, hmac, assertEq_self, hback,
    Wire.plainHeader_size hsize, hadvance]

theorem parseBody_eq (hkeccak : c.Keccak) (hr : Reads e w) {msg : Bytes}
    (hsize : e.bodySize = some msg.length) :
    parseBody c (w.body c msg).2 e =
      (.ok (some msg), { e with
        ingressAes := some (w.body c msg).1.aes
        ingressMac := some (w.body c msg).1.mac
        bodySize := none }) := by
  have hlen : (w.aes.update c (padBody msg)).length = Wire.padded msg.length := by
    rw [update, length_xorStream, Wire.length_padBody]
  have htotal : (w.body c msg).2.length - 16 = Wire.padded msg.length := by
    rw [Wire.length_body hkeccak, Nat.add_sub_cancel]
  have hdata : (w.body c msg).2.take (Wire.padded msg.length) = w.aes.update c (padBody msg) :=
    take_left' hlen
  have htag : (w.body c msg).2.drop (Wire.padded msg.length) = (w.body c msg).1.mac.digest c :=
    drop_left' hlen
  have hback : w.aes.update c (w.aes.update c (padBody msg)) = padBody msg :=
    xorStream_xorStream _ _ _
  have hmac : w.mac.updateBody c (w.aes.update c (padBody msg)) = (w.body c msg).1.mac := rfl
  have hadvance : w.aes.advance (w.aes.update c (padBody msg)) = (w.body c msg).1.aes := by
    simp only [advance, hlen, Wire.body, Wire.length_padBody]
  have hmsg : (padBody msg).take msg.length = msg := zfill_right_take msg _
  simp only [parseBody, hsize, htotal, hr.aes, hr.mac, hdata, htag, hmac, assertEq_self, hback,
    hadvance, hmsg]

end ECIES
end Rlpx
