-- SUMMARY: The DISCONNECT of one end at the other: when its reason arrives, and when a connection stops cleanly.
import TsEthereum.P2p.ClosingRuns
import TsEthereum.P2p.Stages

/-!
# DISCONNECT

The reason is sent as it is, and read as if it were compressed: the other end uncompresses
the payload of every message first, and goes back to the payload itself only where what that gives is
no RLP.
-/

open List Option Except Bool

namespace Rlpx

open Program

namespace Connection

variable {env : Env} {reason : Nat}

/-! ## Reasons -/

/-- The reason is kept when its RLP is uncompressed: that gives no RLP, or the RLP of the reason. -/
def Carries (env : Env) (reason : Nat) : Prop :=
  match env.uncompress (encodeNumber reason) with
  | none => False
  | some data =>
    match decodeRlp data with
    | .error _ => True
    | .ok item => disconnectReasonOf item = .ok reason

/-- The other end has disconnected for this reason. -/
def Recorded (reason : Nat) (c : Connection) : Prop :=
  c.disconnectReason = some reason ∧ c.disconnectWe = some false

/-- The bytes of a reason are few. -/
theorem length_encodeNumber (h : reason < 2 ^ 53) : (encodeNumber reason).length ≤ 9 := by
  have hbytes : (if reason = 0 then [] else Rlp.numberToBytes reason).length ≤ 7 := by
    split
    · decide
    · exact @Rlp.length_numberBytes 6 reason (Nat.lt_of_lt_of_le h (by decide)) (reason + 1) []
  have hfew : (if reason = 0 then [] else Rlp.numberToBytes reason).length < 256 ^ (0 + 1) :=
    Nat.lt_of_le_of_lt hbytes (by decide)
  exact Nat.le_trans (Rlp.length_encodeBytes_le hfew) (Nat.add_le_add_right hbytes 2)

/-- What is sent is read as the reason. -/
theorem decodeRlp_encodeNumber (h : reason < 2 ^ 53) :
    ∃ item, decodeRlp (encodeNumber reason) = .ok item ∧ disconnectReasonOf item = .ok reason := by
  refine ⟨.bytes (if reason = 0 then [] else Rlp.numberToBytes reason), ?_, ?_⟩
  · have hdecode : Rlp.decode (encodeNumber reason) = .ok _ :=
      Rlp.decode_encode (Nat.lt_of_le_of_lt (length_encodeNumber h) (by decide))
    unfold decodeRlp
    rw [hdecode]
  · apply bytesToInt_of_lt _ h
    split
    · next hzero => exact hzero.symm
    · exact bytesToNat_intToBytes reason

/-! ## The other end -/

variable {c : Connection}

/-- A DISCONNECT at an open end that reads compressed messages. -/
theorem disconnect_read (hc : Writable c) (hcompressed : c.compressed = true)
    (hfresh : c.disconnectWe = none) (h : reason < 2 ^ 53) :
    (orDisconnect env (dispatch env .base RLPX_PREFIXES.DISCONNECT (encodeNumber reason))).wp
      (fun _ c' => Recorded reason c' ↔ Carries env reason) (fun _ _ => False) c := by
  have hrefused {c' : Connection} (hwe : c'.disconnectWe ≠ some false) (hnot : ¬Carries env reason) :
      Recorded reason c' ↔ Carries env reason :=
    ⟨fun hrecorded => absurd hrecorded.2 hwe, fun hcarries => absurd hcarries hnot⟩
  have hread (item : Rlp.Item) (hcarries : Carries env reason ↔ disconnectReasonOf item = .ok reason) :
      (handle env (.base RLPX_PREFIXES.DISCONNECT item)).wp
        (fun _ c' => Recorded reason c' ↔ Carries env reason)
        (fun _ c' => c'.closed = true ∧ c'.disconnectWe = none ∧ ¬Carries env reason) c := by
    change (handleDisconnect item).wp _ _ c
    simp only [handleDisconnect, wp_bind, wp_modify, hcarries]
    cases hreason : disconnectReasonOf item with
    | error fault => exact ⟨rfl, hfresh, by rintro ⟨⟩⟩
    | ok n =>
      refine ⟨fun hrecorded => congrArg Except.ok (some.inj hrecorded.1), fun heq => ⟨?_, rfl⟩⟩
      exact congrArg some (ok.inj heq)
  have hcaught (p : Action Unit) (hp : p.wp (fun _ c' => Recorded reason c' ↔ Carries env reason)
      (fun _ c' => c'.closed = true ∧ c'.disconnectWe = none ∧ ¬Carries env reason) c) :
      (orDisconnect env p).wp (fun _ c' => Recorded reason c' ↔ Carries env reason) (fun _ _ => False) c := by
    simp only [orDisconnect, wp_bind, wp_attempt]
    apply wp_mono hp
    · exact fun _ _ hdone => hdone
    · rintro fault c' ⟨hclosed, hwe, hnot⟩
      apply wp_of_run (disconnect_closed hclosed _)
      exact hrefused (fun heq => by cases hwe.symm.trans heq) hnot
  cases hdata : env.uncompress (encodeNumber reason) with
  | none =>
    -- the payload is refused before it is decoded
    have hdecoded : decoded env c .base RLPX_PREFIXES.DISCONNECT (encodeNumber reason) = .error .crypto := by
      unfold decoded uncompress
      rw [hcompressed, hdata]
      rfl
    have hnot : ¬Carries env reason := by
      unfold Carries
      rw [hdata]
      exact id
    simp only [orDisconnect, wp_bind, wp_attempt]
    apply wp_dispatch
    rw [hdecoded]
    apply wp_mono (disconnect_writable hc _)
    · rintro _ c' ⟨-, hwe⟩
      exact hrefused (fun heq => by cases hwe.symm.trans heq) hnot
    · exact fun _ _ hthrew => hthrew
  | some data =>
    have hdecoded {item : Rlp.Item} (hbase : decodeBase env RLPX_PREFIXES.DISCONNECT true
        (encodeNumber reason) data = .ok item) : decoded env c .base RLPX_PREFIXES.DISCONNECT
          (encodeNumber reason) = .ok (.base RLPX_PREFIXES.DISCONNECT item) := by
      unfold decoded uncompress
      rw [hcompressed, hdata]
      exact congrArg (Except.map _) hbase
    apply hcaught
    apply wp_dispatch
    cases hitem : decodeRlp data with
    | ok item =>
      rw [hdecoded (by rw [decodeBase, hitem]), wp_bind]
      exact hread item (by simp only [Carries, hdata, hitem])
    | error fault =>
      obtain ⟨item, hitem', hreason⟩ := decodeRlp_encodeNumber h
      rw [hdecoded (by rw [decodeBase, hitem]; exact hitem'), wp_bind]
      exact hread item ⟨fun _ => hreason, fun _ => by simp only [Carries, hdata, hitem]⟩

/-! ## The stream -/

/-- The bytes of a DISCONNECT. -/
def disconnectBytes (reason : Nat) : Bytes := messageBytes RLPX_PREFIXES.DISCONNECT (encodeNumber reason)

theorem length_disconnectBytes (h : reason < 2 ^ 53) : (disconnectBytes reason).length < 2 ^ 24 := by
  have hone : encodeNumber RLPX_PREFIXES.DISCONNECT = [1] := rfl
  rw [disconnectBytes, messageBytes, hone, length_append]
  exact Nat.lt_of_le_of_lt (Nat.add_le_add_left (length_encodeNumber h) 1) (by decide)

/-- A DISCONNECT is addressed to the connection itself, also before any HELLO. -/
theorem addressee_disconnectBytes (c : Connection) :
    addressee c (disconnectBytes reason) = some (.base, RLPX_PREFIXES.DISCONNECT) := rfl

/-- An end that may be told to disconnect: open, with compressed messages. -/
structure Told (c : Connection) : Prop extends Writable c where
  compressed : c.compressed = true
  fresh : c.disconnectWe = none

/-- Where the other end stands: before the header of the message, before its body, or behind it. -/
inductive Awaiting (env : Env) (reason : Nat) (later : Bytes) (c : Connection) : Prop
  | header (w : Wire) (hc : Told c) (hstate : c.state = .Header) (hneed : c.nextPacketSize = 32)
      (hreads : Reads c.eciesSession w)
      (hstream : c.socketData ++ later = (w.frame env.crypto (disconnectBytes reason)).2) :
    Awaiting env reason later c
  | body (w : Wire) (hc : Told c) (hstate : c.state = .Body)
      (hneed : c.nextPacketSize = Wire.padded (disconnectBytes reason).length + 16)
      (hsize : c.eciesSession.bodySize = some (disconnectBytes reason).length)
      (hreads : Reads c.eciesSession w)
      (hstream : c.socketData ++ later = (w.body env.crypto (disconnectBytes reason)).2) :
    Awaiting env reason later c
  | read (hrecorded : Recorded reason c ↔ Carries env reason) (hneed : c.nextPacketSize = 32)
      (hbuffer : c.socketData = []) (hlater : later = []) : Awaiting env reason later c

variable {w : Wire} {later : Bytes}

section

variable (hkeccak : env.crypto.Keccak)
include hkeccak

theorem header_awaiting (h : reason < 2 ^ 53) (hc : Told c)
    (hneed : c.nextPacketSize = 32) (hreads : Reads c.eciesSession w)
    (hstream : c.socketData ++ later = (w.frame env.crypto (disconnectBytes reason)).2)
    (hlen : c.nextPacketSize ≤ c.socketData.length) :
    (handleHeader env).wp (fun _ c' => Awaiting env reason later c' ∧ c'.socketData.length < c.socketData.length)
      (fun _ _ => False) c := by
  have hfew := length_disconnectBytes h
  have hheader := Wire.length_header hkeccak w hfew
  rw [Wire.frame_bytes] at hstream
  obtain ⟨htake, hrest⟩ := split_stream hstream (by rw [hheader, ← hneed]; exact hlen)
  rw [hheader, ← hneed] at htake hrest
  have hshorter : (c.socketData.drop c.nextPacketSize).length < c.socketData.length := by
    rw [length_drop]
    omega
  have hread : (handleHeader env).wp (fun _ c' => ∃ e, e.bodySize = some (disconnectBytes reason).length ∧
      Reads e (w.header env.crypto (disconnectBytes reason).length).1 ∧ c' = { c with
        eciesSession := e
        state := .Body
        nextPacketSize := Wire.padded (disconnectBytes reason).length + 16
        socketData := c.socketData.drop c.nextPacketSize }) (fun _ _ => False) c :=
    handleHeader_wp hkeccak hfew hreads htake fun e hsize hreads' => ⟨e, hsize, hreads', rfl⟩
  apply wp_mono (wp_and hread (quiet_handleHeader.wp c))
  · rintro _ c' ⟨⟨e, hsize, hreads', rfl⟩, hquiet⟩
    refine ⟨.body _ ⟨⟨hc.isOpen, hc.alive, hquiet.canWrite hc.keys⟩, hc.compressed, hc.fresh⟩ rfl rfl hsize hreads'
      hrest, hshorter⟩
  · exact fun _ _ hthrew => hthrew.1

theorem body_awaiting (h : reason < 2 ^ 53) (hc : Told c)
    (hneed : c.nextPacketSize = Wire.padded (disconnectBytes reason).length + 16)
    (hsize : c.eciesSession.bodySize = some (disconnectBytes reason).length)
    (hreads : Reads c.eciesSession w)
    (hstream : c.socketData ++ later = (w.body env.crypto (disconnectBytes reason)).2)
    (hlen : c.nextPacketSize ≤ c.socketData.length) :
    (handleBody env).wp (fun _ c' => Awaiting env reason later c' ∧ c'.socketData.length < c.socketData.length)
      (fun _ _ => False) c := by
  have hbody := Wire.length_body hkeccak w (disconnectBytes reason)
  obtain ⟨htake, hrest⟩ := split_stream (hstream.trans (append_nil _).symm) (by rw [hbody, ← hneed]; exact hlen)
  rw [hbody, ← hneed] at htake hrest
  obtain ⟨hbuffer, hlater⟩ := append_eq_nil_iff.mp hrest
  have hparse := ECIES.parseBody_eq hkeccak hreads hsize
  rw [← htake] at hparse
  have hshorter : (c.socketData.drop c.nextPacketSize).length < c.socketData.length := by
    rw [length_drop]
    omega
  apply wp_handleBody
  · exact fun hrun => nomatch hparse.symm.trans hrun
  · exact fun hrun => nomatch hparse.symm.trans hrun
  · intro e body hrun hnobody
    obtain rfl := some.inj (ok.inj (congrArg Prod.fst (hparse.symm.trans hrun)))
    exact nomatch (addressee_disconnectBytes c).symm.trans hnobody
  · intro e body receiver msgCode hrun hto
    obtain rfl := some.inj (ok.inj (congrArg Prod.fst (hparse.symm.trans hrun)))
    obtain ⟨rfl, rfl⟩ := Prod.mk.inj (some.inj ((addressee_disconnectBytes c).symm.trans hto))
    have hread : Writable (c.bodyRead e) := ⟨hc.isOpen, hc.alive, hc.toWritable.parsed hrun⟩
    have hplace : (orDisconnect env (dispatch env .base RLPX_PREFIXES.DISCONNECT (encodeNumber reason))).Keeps
        SamePlace := laws_samePlace.keeps_orDisconnect (laws_samePlace.keeps_dispatch _ _ _)
    apply wp_mono (wp_and (disconnect_read hread hc.compressed hc.fresh h) (hplace.wp (c.bodyRead e)))
    · rintro _ c' ⟨hrecorded, hsame⟩
      have hsocket : c'.socketData.drop c.nextPacketSize = c.socketData.drop c.nextPacketSize :=
        congrArg (List.drop c.nextPacketSize) hsame.socketData
      refine ⟨.read hrecorded hsame.nextPacketSize (hsocket.trans hbuffer) hlater, ?_⟩
      exact hsocket ▸ hshorter
    · exact fun _ _ hthrew => hthrew.1

theorem step_awaiting (h : reason < 2 ^ 53)
    (hc : Awaiting env reason later c) (hready : (reader env).ready c = true) :
    ∃ c', (reader env).step c = (.ok (), c') ∧ Awaiting env reason later c' ∧
      c'.socketData.length < c.socketData.length := by
  have hlen : c.nextPacketSize ≤ c.socketData.length := of_decide_eq_true hready
  suffices hwp : ((reader env).step).wp (fun _ c' => Awaiting env reason later c' ∧
      c'.socketData.length < c.socketData.length) (fun _ _ => False) c by
    obtain ⟨_, c', hrun, hdone⟩ := wp_total hwp
    exact ⟨c', hrun, hdone⟩
  simp only [reader, wp_bind, wp_get]
  cases hc with
  | header w hc hstate hneed hreads hstream =>
    rw [hstate]
    exact header_awaiting hkeccak h hc hneed hreads hstream hlen
  | body w hc hstate hneed hsize hreads hstream =>
    rw [hstate]
    exact body_awaiting hkeccak h hc hneed hsize hreads hstream hlen
  | read hrecorded hneed hbuffer hlater =>
    rw [hneed, hbuffer] at hlen
    exact absurd hlen (by decide)

theorem onSocketData_awaiting {chunk : Bytes} (h : reason < 2 ^ 53)
    (hc : Awaiting env reason (chunk ++ later) c) :
    ∃ c', onSocketData env chunk c = (.ok (), c') ∧ Awaiting env reason later c' ∧ (reader env).ready c' = false := by
  rcases hclosed : c.closed with _ | _
  · -- the chunk moves from what is to come into the buffer
    have hmoved : Awaiting env reason later (c.received chunk) := by
      cases hc with
      | header w hc hstate hneed hreads hstream =>
        exact .header w ⟨⟨hc.isOpen, hc.alive, hc.keys⟩, hc.compressed, hc.fresh⟩ hstate hneed hreads
          ((append_assoc _ _ _).trans hstream)
      | body w hc hstate hneed hsize hreads hstream =>
        exact .body w ⟨⟨hc.isOpen, hc.alive, hc.keys⟩, hc.compressed, hc.fresh⟩ hstate hneed hsize hreads
          ((append_assoc _ _ _).trans hstream)
      | read hrecorded hneed hbuffer hlater =>
        obtain ⟨rfl, rfl⟩ := append_eq_nil_iff.mp hlater
        exact .read hrecorded hneed ((append_nil _).trans hbuffer) rfl
    have hfuel : (c.received chunk).socketData.length ≤ 2 * (c.socketData.length + chunk.length) + 4 := by
      simp only [received, length_append]
      omega
    obtain ⟨c', hdrain, hawaiting, hwaits⟩ := StreamReader.drain_spec (Awaiting env reason later)
      (fun c => c.socketData.length) (fun _ hc hready => step_awaiting hkeccak h hc hready) hmoved hfuel
    refine ⟨c', ?_, hawaiting, hwaits⟩
    unfold onSocketData
    apply (bind_of_ok (get_run c)).trans
    simp only [hclosed, when, if_true]
    exact orDisconnect_ok hdrain
  · -- only behind the message is the connection closed
    refine ⟨c, onSocketData_closed hclosed chunk, ?_⟩
    cases hc with
    | header w hc => exact absurd (hc.isOpen.symm.trans hclosed) Bool.false_ne_true
    | body w hc => exact absurd (hc.isOpen.symm.trans hclosed) Bool.false_ne_true
    | read hrecorded hneed hbuffer hlater =>
      refine ⟨.read hrecorded hneed hbuffer (append_eq_nil_iff.mp hlater).2, ?_⟩
      simp only [reader, hneed, hbuffer]
      rfl

/-- A DISCONNECT that has come in as a whole has been read. -/
theorem recorded_of_awaiting (h : reason < 2 ^ 53)
    (hc : Awaiting env reason [] c) (hwaits : (reader env).ready c = false) :
    Recorded reason c ↔ Carries env reason := by
  have hshort : ¬c.nextPacketSize ≤ c.socketData.length := of_decide_eq_false hwaits
  cases hc with
  | header w hc hstate hneed hreads hstream =>
    rw [append_nil] at hstream
    refine absurd ?_ hshort
    rw [hneed, hstream, Wire.frame_bytes, length_append, Wire.length_header hkeccak w (length_disconnectBytes h)]
    exact Nat.le_add_right _ _
  | body w hc hstate hneed hsize hreads hstream =>
    rw [append_nil] at hstream
    refine absurd ?_ hshort
    rw [hneed, hstream, Wire.length_body hkeccak]
  | read hrecorded => exact hrecorded

/-- The reason of a DISCONNECT is recorded by the other end where uncompressing keeps it. -/
theorem recorded_iff {s r : Connection} {theirs : HelloMessage}
    (hlinked : Linked s r theirs w) (halive : r.destroyed = false) (hkeys : CanWrite r.eciesSession)
    (hfresh : r.disconnectWe = none) (h : reason < 2 ^ 53) :
    ∃ s', Connection.disconnect env reason s = (.ok (), s') ∧
      ∀ chunks : List Bytes, s'.written = s.written ++ chunks.flatten →
        ∃ r', StreamReader.feed (onSocketData env) chunks r = (.ok (), r') ∧
          (Recorded reason r' ↔ Carries env reason) := by
  have hsent : (Connection.disconnect env reason).wp (fun _ s' => s'.written =
      s.written ++ (w.frame env.crypto (disconnectBytes reason)).2) (fun _ _ => False) s := by
    simp only [Connection.disconnect, wp_bind]
    apply sendMessage_wp hlinked.senderOpen hlinked.senderAlive hlinked.writes
    intro e' _
    apply wp_when
    · exact fun _ => rfl
    · exact fun hnot => absurd rfl hnot
  obtain ⟨_, s', hrun, hwritten⟩ := wp_total hsent
  refine ⟨s', hrun, fun chunks hchunks => ?_⟩
  have hstream : chunks.flatten = (w.frame env.crypto (disconnectBytes reason)).2 :=
    append_cancel_left (hchunks.symm.trans hwritten)
  have hcompressed : r.compressed = true := by
    unfold compressed
    rw [hlinked.hello, any_some, hlinked.version]
    rfl
  have hstart : Awaiting env reason (chunks.flatten ++ []) r := by
    refine .header w ⟨⟨hlinked.isOpen, halive, hkeys⟩, hcompressed, hfresh⟩ hlinked.state hlinked.need hlinked.reads ?_
    rw [hlinked.buffer, append_nil, nil_append]
    exact hstream
  have hwaits : (reader env).ready r = false := by
    simp only [reader, hlinked.need, hlinked.buffer]
    rfl
  obtain ⟨r', hfed, hawaiting, hwaits'⟩ := StreamReader.feed_spec
    (fun later c => Awaiting env reason later c ∧ (reader env).ready c = false)
    (fun _ _ _ hc => onSocketData_awaiting hkeccak h hc.1) chunks ⟨hstart, hwaits⟩
  exact ⟨r', hfed, recorded_of_awaiting hkeccak h hawaiting hwaits'⟩

end

/-- In every orderly run a connection that has stopped hands nothing over, and its socket is ended.
After the HELLO messages the reason of a DISCONNECT is recorded by the other end if and only if
uncompressing keeps it. -/
theorem stops_cleanly (env : Env) :
    (∀ c, Started env c → ∀ inputs, OrderlyRun env c inputs → StopsCleanly env c inputs) ∧
    (env.crypto.Keccak → ∀ (s r : Connection) (theirs : HelloMessage) (w : Wire), Linked s r theirs w →
      r.destroyed = false → CanWrite r.eciesSession → r.disconnectWe = none → ∀ reason, reason < 2 ^ 53 →
      ∃ s', Connection.disconnect env reason s = (.ok (), s') ∧
        ∀ chunks : List Bytes, s'.written = s.written ++ chunks.flatten →
          ∃ r', StreamReader.feed (onSocketData env) chunks r = (.ok (), r') ∧
            (Recorded reason r' ↔ Carries env reason)) := by
  constructor
  · exact fun c hstart inputs horderly => stopsCleanly_of_orderlyRun hstart inputs horderly
  · intro hkeccak s r theirs w hlinked halive hkeys hfresh reason h
    exact recorded_iff hkeccak hlinked halive hkeys hfresh h

end Connection

/-! ## A listener that stops -/

namespace Sample

open Connection

/-- A payload of one byte is a length without anything to fill it, which leaves zeros. -/
def snappy : Env :=
  { env with uncompress := fun data => match data with
    | [] => none
    | [n] => if n < 128 then some (List.replicate n.toNat 0) else none
    | _ :: _ :: literal => some literal }

theorem orderly_data {c : Connection} {chunk : Bytes}
    (h : (readingOf env c chunk).all (fun c' => !c'.closed && !(mark env c').stops) = true) :
    OrderlyInput env c (.data chunk) := by
  intro c' hmem
  obtain ⟨hopen, hgoes⟩ := (and_eq_true _ _).mp (all_eq_true.mp h c' hmem)
  exact .of_goes (not_eq_true' _ |>.mp hopen) (not_eq_true' _ |>.mp hgoes)

/-- The listener reads the HELLO of its peer, and disconnects; and one of two ends is told that
there are too many peers. -/
theorem stops_cleanly_told : StopsCleanly env listener (told [nodeId 4] ++ [.disconnect 4]) ∧
      ∃ s', Connection.disconnect snappy 4 (connected .outbound) = (.ok (), s') ∧
        ∀ chunks : List Bytes, s'.written = (connected .outbound).written ++ chunks.flatten →
          ∃ r', StreamReader.feed (onSocketData snappy) chunks (connected .inbound) = (.ok (), r') ∧
            (Recorded 4 r' ↔ Carries snappy 4) := by
  constructor
  · apply (stops_cleanly env).1 listener listener_started
    refine ⟨orderly_data (by decide +kernel), trivial, orderly_data (by decide +kernel), ?_, trivial⟩
    exact .inr (.inr ⟨by decide +kernel, by decide +kernel⟩)
  · exact (stops_cleanly snappy).2 (fun b => by simp [snappy, env, crypto, digest]) (connected .outbound)
      (connected .inbound) hello ⟨⟨[1], [2], 0⟩, ⟨[3], []⟩⟩
      ⟨rfl, rfl, rfl, ⟨rfl, rfl⟩, rfl, rfl, rfl, rfl, rfl, rfl, rfl, ⟨rfl, rfl⟩⟩ rfl ⟨rfl, rfl⟩ rfl 4 (by decide)

/-- A first packet that fails its check leaves the socket open, as nothing can be sent; and a
network error arrives as another reason. -/
theorem stops_uncleanly :
    (Started env listener ∧ ¬StopsCleanly env listener [.data (List.replicate 307 0)]) ∧
      (StreamReader.feed (onSocketData snappy) [(Connection.disconnect snappy DISCONNECT_REASON.NETWORK_ERROR
        (connected .outbound)).2.written] (connected .inbound)).2.disconnectReason = some 0 := by
  refine ⟨⟨listener_started, fun hclean => ?_⟩, by decide +kernel⟩
  have hfails : ⟨true, false⟩ ∈ trace env listener [.data (List.replicate 307 0)] := by decide +kernel
  rcases hclean.ended _ hfails rfl with hended | hdestroyed | hclosed
  · have hnone : (run env listener [.data (List.replicate 307 0)]).disconnectWe.isSome = false := by decide +kernel
    exact Bool.false_ne_true (hnone.symm.trans hended)
  · have halive : (run env listener [.data (List.replicate 307 0)]).destroyed = false := by decide +kernel
    exact Bool.false_ne_true (halive.symm.trans hdestroyed)
  · cases mem_singleton.mp hclosed

end Sample
end Rlpx
