-- SUMMARY: The ban list, and the round of pings that a full bucket starts: what it leaves when all pings have settled.
import TsEthereum.Kademlia.RoutingTable

/-!
# Rounds of pings

The continuations of the pings share a counter and an error. The counter only counts the
pings that were answered, so with a failed ping it never reaches the end of the round.
The ban list's LRU cache is kept with the entry that was used last in front.
-/

open List

/-! ## The ban list -/

structure BanEntry where
  key : String
  start : Int
  ttl : Option Int
  deriving DecidableEq, Repr

structure BanList where
  _lru : List BanEntry

namespace BanList

def MAX_SIZE : Nat := 10000

def new : BanList := ⟨[]⟩

/-- `set` of the cache, which drops what was used the longest time ago. -/
def set (b : BanList) (now : Int) (key : String) (ttl : Option Int) : BanList :=
  ⟨(⟨key, now, ttl⟩ :: b._lru.filter fun entry => entry.key ≠ key).take MAX_SIZE⟩

def isStale (entry : BanEntry) (now : Int) : Bool :=
  match entry.ttl with
  | none => false
  | some ttl => now - entry.start > ttl

/-- `get` of the cache, which drops a stale entry and moves any other one to the front. -/
def get (b : BanList) (now : Int) (key : String) : Bool × BanList :=
  match b._lru.find? fun entry => entry.key = key with
  | none => (false, b)
  | some entry =>
    let others := b._lru.filter fun entry => entry.key ≠ key
    if isStale entry now then (false, ⟨others⟩) else (true, ⟨entry :: others⟩)

/-- Adds a peer by its keys. -/
def add (b : BanList) (now : Int) (keys : List String) (maxAge : Option Int) : BanList :=
  keys.foldl (fun b key => b.set now key maxAge) b

/-- Whether a peer is banned by one of its keys. -/
def has (b : BanList) (now : Int) : List String → Bool × BanList
  | [] => (false, b)
  | key :: keys =>
    match b.get now key with
    | (true, b) => (true, b)
    | (false, b) => has b now keys

/-- The cache has an entry of the key that is not stale. -/
def Fresh (b : BanList) (now : Int) (key : String) : Prop :=
  ∃ entry, b._lru.find? (fun entry => entry.key = key) = some entry ∧ isStale entry now = false

theorem fresh_set (b : BanList) (now : Int) (key : String) {ttl : Option Int}
    (httl : ∀ t, ttl = some t → 0 ≤ t) : (b.set now key ttl).Fresh now key := by
  refine ⟨⟨key, now, ttl⟩, by simp [set, MAX_SIZE], ?_⟩
  cases ttl with
  | none => rfl
  | some t =>
    have ht := httl t rfl
    simp only [isStale, Int.sub_self]
    exact decide_eq_false (Int.not_lt.mpr ht)

theorem find_others (l : List BanEntry) {key other : String} (h : key ≠ other) :
    (l.filter fun entry => entry.key ≠ other).find? (fun entry => entry.key = key) =
      l.find? fun entry => entry.key = key := by
  rw [find?_filter]
  congr 1
  funext entry
  simp only [decide_eq_decide, decide_eq_true_eq]
  exact ⟨And.right, fun he => ⟨he ▸ h, he⟩⟩

theorem get_eq_true {b : BanList} {now : Int} {key : String} :
    (b.get now key).1 = true ↔ b.Fresh now key := by
  unfold BanList.get Fresh
  cases b._lru.find? fun entry => entry.key = key with
  | none => simp
  | some entry => cases hstale : isStale entry now <;> simp [hstale]

/-- Asking for a key changes for no key whether it is fresh. -/
theorem fresh_get (b : BanList) (now : Int) (key other : String) :
    (b.get now other).2.Fresh now key ↔ b.Fresh now key := by
  unfold BanList.get
  cases hfind : b._lru.find? fun entry => entry.key = other with
  | none => rfl
  | some entry =>
    have hkey : entry.key = other := by simpa using find?_some hfind
    cases hstale : isStale entry now with
    | true =>
      simp only [Fresh, hstale, if_true]
      rcases Decidable.em (key = other) with rfl | hne
      · have hnone : (b._lru.filter fun entry => entry.key ≠ key).find?
            (fun entry => entry.key = key) = none := by
          rw [find?_eq_none]
          intro e he
          simpa using (mem_filter.mp he).2
        rw [hnone, hfind]
        simp [hstale]
      · rw [find_others b._lru hne]
    | false =>
      simp only [Fresh, hstale, Bool.false_eq_true, if_false]
      rcases Decidable.em (key = other) with rfl | hne
      · simp [hfind, hkey]
      · rw [find?_cons_of_neg (by simpa [hkey] using Ne.symm hne), find_others b._lru hne]

theorem fresh_has (b : BanList) (now : Int) (key : String) (keys : List String) :
    (b.has now keys).2.Fresh now key ↔ b.Fresh now key := by
  induction keys generalizing b with
  | nil => rfl
  | cons other keys ih =>
    have hget := fresh_get b now key other
    unfold BanList.has
    split
    · next b' heq =>
      rw [heq] at hget
      exact hget
    · next b' heq =>
      rw [heq] at hget
      exact (ih b').trans hget

theorem has_eq_true {b : BanList} {now : Int} {keys : List String} :
    (b.has now keys).1 = true ↔ ∃ key ∈ keys, b.Fresh now key := by
  induction keys generalizing b with
  | nil => exact ⟨nofun, fun ⟨_, h, _⟩ => (nomatch h)⟩
  | cons other keys ih =>
    have hother : (b.get now other).1 = true ↔ b.Fresh now other := get_eq_true
    have hrest := fun key => fresh_get b now key other
    rw [exists_mem_cons_iff]
    unfold BanList.has
    split
    · next b' heq =>
      rw [heq] at hother
      exact ⟨fun _ => .inl (hother.mp rfl), fun _ => rfl⟩
    · next b' heq =>
      rw [heq] at hother hrest
      have hstale : ¬ b.Fresh now other := fun h => nomatch hother.mpr h
      simp only [ih, hrest, hstale, false_or]

/-- A peer with a key is banned when it has just been added. -/
theorem has_add (b : BanList) (now : Int) {keys : List String} (hkeys : keys ≠ []) {maxAge : Option Int}
    (hage : ∀ t, maxAge = some t → 0 ≤ t) : ((b.add now keys maxAge).has now keys).1 = true := by
  obtain ⟨earlier, key, rfl⟩ : ∃ earlier key, keys = earlier ++ [key] :=
    ⟨keys.dropLast, keys.getLast hkeys, (dropLast_append_getLast hkeys).symm⟩
  have hfresh := fresh_set (b.add now earlier maxAge) now key hage
  rw [add, foldl_append]
  exact has_eq_true.mpr ⟨key, mem_append_right _ (mem_singleton_self key), hfresh⟩

end BanList

/-! ## Rounds -/

structure KademliaNode where
  _banlist : BanList
  _kbucket : RoutingTable

/-- What the continuations of one call share. -/
structure PingRound where
  count : Nat
  err : Bool
  /-- The peers handed to `_kbucket.add`; no function of the source reads it. -/
  offered : List PeerInfo

/-- A ping of the round that settles. -/
structure Settlement where
  peer : PeerInfo
  failed : Bool
  now : Int

namespace KademliaNode

variable (bytesToUnprefixedHex : Bytes → String)

/-- Five minutes. -/
def BAN_TIME : Int := 300000

def isBanned (s : KademliaNode) (now : Int) (peer : PeerInfo) : Bool :=
  (s._banlist.has now (RoutingTable.peerKeys bytesToUnprefixedHex peer)).1

def ban (s : KademliaNode) (now : Int) (peer : PeerInfo) : KademliaNode :=
  { s with _banlist := s._banlist.add now (RoutingTable.peerKeys bytesToUnprefixedHex peer) (some BAN_TIME) }

/-- `_onKBucketPing` until it returns: the peers that it pings. -/
def onKBucketPing (s : KademliaNode) (now : Int) (oldPeers : List PeerInfo) (newPeer : PeerInfo) :
    KademliaNode × List PeerInfo :=
  let (banned, _banlist) := s._banlist.has now (RoutingTable.peerKeys bytesToUnprefixedHex newPeer)
  ({ s with _banlist := _banlist }, if banned then [] else oldPeers)

/-- The continuation of a ping that fails, or of one whose other continuation throws. -/
def onFailure (s : KademliaNode) (round : PingRound) (now : Int) (peer : PeerInfo) :
    KademliaNode × PingRound :=
  let s := s.ban bytesToUnprefixedHex now peer
  ({ s with _kbucket := (s._kbucket.remove bytesToUnprefixedHex (.peer peer)).1 },
    { round with err := true })

/-- The continuation of a ping that is answered; `stack` bounds the calls in the bucket. -/
def onAnswer (stack : Nat) (oldPeers : List PeerInfo) (newPeer : PeerInfo) (s : KademliaNode)
    (round : PingRound) (now : Int) (peer : PeerInfo) : KademliaNode × PingRound :=
  let round := { round with count := round.count + 1 }
  if round.count < oldPeers.length then (s, round)
  else if round.err then
    let round := { round with offered := round.offered ++ [newPeer] }
    match s._kbucket.add bytesToUnprefixedHex stack newPeer with
    | (_kbucket, .ok _) => ({ s with _kbucket := _kbucket }, round)
    | (_kbucket, .error _) =>
      onFailure bytesToUnprefixedHex { s with _kbucket := _kbucket } round now peer
  else (s.ban bytesToUnprefixedHex now newPeer, round)

def settle (stack : Nat) (oldPeers : List PeerInfo) (newPeer : PeerInfo)
    (s : KademliaNode × PingRound) (x : Settlement) : KademliaNode × PingRound :=
  if x.failed then onFailure bytesToUnprefixedHex s.1 s.2 x.now x.peer
  else onAnswer bytesToUnprefixedHex stack oldPeers newPeer s.1 s.2 x.now x.peer

/-- A call, and the pings that settle after it in the given order. -/
def pingRound (stack : Nat) (s : KademliaNode) (start : Int) (oldPeers : List PeerInfo)
    (newPeer : PeerInfo) (settlements : List Settlement) : KademliaNode × PingRound :=
  settlements.foldl (settle bytesToUnprefixedHex stack oldPeers newPeer)
    ((s.onKBucketPing bytesToUnprefixedHex start oldPeers newPeer).1, ⟨0, false, []⟩)

/-- The time at which the last ping has settled. -/
def endTime (start : Int) (settlements : List Settlement) : Int :=
  (settlements.getLast?.map Settlement.now).getD start

/-- What a round is for, at the time when all pings have settled. -/
structure RoundDone (newPeer : PeerInfo) (settlements : List Settlement) (now : Int)
    (s : KademliaNode × PingRound) : Prop where
  failed : ∀ x ∈ settlements, x.failed = true → s.1.isBanned bytesToUnprefixedHex now x.peer = true ∧
    ∀ contact ∈ s.1._kbucket.getAll, x.peer.id ≠ some contact.id
  someFailed : (∃ x ∈ settlements, x.failed = true) → newPeer ∈ s.2.offered ∧
    s.1.isBanned bytesToUnprefixedHex now newPeer = false
  noneFailed : (∀ x ∈ settlements, x.failed = false) →
    s.1.isBanned bytesToUnprefixedHex now newPeer = true

/-! ## The counter -/

variable {bytesToUnprefixedHex} {stack : Nat} {oldPeers : List PeerInfo} {newPeer : PeerInfo}

variable (bytesToUnprefixedHex stack newPeer) in
/-- As long as the answered pings are too few, the round does not end. -/
theorem settle_unended {s : KademliaNode × PingRound} {x : Settlement}
    (h : s.2.count + (if x.failed then 0 else 1) < oldPeers.length) :
    (settle bytesToUnprefixedHex stack oldPeers newPeer s x).2.count =
        s.2.count + (if x.failed then 0 else 1) ∧
      (settle bytesToUnprefixedHex stack oldPeers newPeer s x).2.offered = s.2.offered ∧
      (x.failed = false → (settle bytesToUnprefixedHex stack oldPeers newPeer s x).2.err = s.2.err ∧
        (settle bytesToUnprefixedHex stack oldPeers newPeer s x).1 = s.1) := by
  unfold settle
  cases hfailed : x.failed with
  | true => exact ⟨rfl, rfl, fun hx => nomatch hx⟩
  | false =>
    rw [hfailed] at h
    have hround : s.2.count + 1 < oldPeers.length := h
    simp [onAnswer, hround]

variable (bytesToUnprefixedHex stack newPeer) in
theorem foldl_settle_unended {settlements : List Settlement} {s : KademliaNode × PingRound}
    (h : s.2.count + settlements.countP (fun x => !x.failed) < oldPeers.length) :
    (settlements.foldl (settle bytesToUnprefixedHex stack oldPeers newPeer) s).2.count =
        s.2.count + settlements.countP (fun x => !x.failed) ∧
      (settlements.foldl (settle bytesToUnprefixedHex stack oldPeers newPeer) s).2.offered = s.2.offered ∧
      ((∀ x ∈ settlements, x.failed = false) →
        (settlements.foldl (settle bytesToUnprefixedHex stack oldPeers newPeer) s).2.err = s.2.err) := by
  induction settlements generalizing s with
  | nil => exact ⟨rfl, rfl, fun _ => rfl⟩
  | cons x settlements ih =>
    have hcount : (x :: settlements).countP (fun x => !x.failed) =
        (if x.failed then 0 else 1) + settlements.countP fun x => !x.failed := by
      rw [countP_cons, Nat.add_comm]
      cases x.failed <;> rfl
    rw [hcount, ← Nat.add_assoc] at h ⊢
    obtain ⟨hc, ho, he⟩ := settle_unended bytesToUnprefixedHex stack newPeer
      (Nat.lt_of_le_of_lt (Nat.le_add_right _ _) h)
    rw [← hc] at h ⊢
    obtain ⟨hc', ho', he'⟩ := ih h
    refine ⟨hc', ho'.trans ho, fun hall => ?_⟩
    rw [forall_mem_cons] at hall
    exact (he' hall.2).trans (he hall.1).1

theorem isBanned_ban (s : KademliaNode) (now : Int) {peer : PeerInfo}
    (hkeys : RoutingTable.peerKeys bytesToUnprefixedHex peer ≠ []) :
    (s.ban bytesToUnprefixedHex now peer).isBanned bytesToUnprefixedHex now peer = true := by
  apply BanList.has_add _ now hkeys
  intro t ht
  rw [← Option.some.inj ht]
  decide

variable (bytesToUnprefixedHex) in
/-- Asking whether the new peer is banned leaves that as it is. -/
theorem isBanned_onKBucketPing (s : KademliaNode) (now : Int) (oldPeers : List PeerInfo)
    (newPeer : PeerInfo) :
    (s.onKBucketPing bytesToUnprefixedHex now oldPeers newPeer).1.isBanned bytesToUnprefixedHex now
      newPeer = s.isBanned bytesToUnprefixedHex now newPeer := by
  apply Bool.eq_iff_iff.mpr
  simp only [isBanned, onKBucketPing, BanList.has_eq_true, BanList.fresh_has]

theorem onKBucketPing_pings (s : KademliaNode) (now : Int) (oldPeers : List PeerInfo)
    (newPeer : PeerInfo) : (s.onKBucketPing bytesToUnprefixedHex now oldPeers newPeer).2 =
      if s.isBanned bytesToUnprefixedHex now newPeer then [] else oldPeers := rfl

/-! ## When a round does what it is for -/

variable (bytesToUnprefixedHex stack newPeer) in
/-- With a failed ping the round never ends: the new peer is not offered to the table. -/
theorem offered_of_failed (s : KademliaNode) (start : Int) {settlements : List Settlement}
    (hlength : settlements.length = oldPeers.length) (hfailed : ∃ x ∈ settlements, x.failed = true) :
    (s.pingRound bytesToUnprefixedHex stack start oldPeers newPeer settlements).2.offered = [] := by
  obtain ⟨x, hx, hfailed⟩ := hfailed
  have hfew : settlements.countP (fun x => !x.failed) < settlements.length := by
    apply List.countP_lt_length_iff.mpr
    exact ⟨x, hx, by simp [hfailed]⟩
  refine (foldl_settle_unended bytesToUnprefixedHex stack newPeer ?_).2.1
  rw [Nat.zero_add, ← hlength]
  exact hfew

/-- When every ping is answered, the last answer bans the new peer. -/
theorem isBanned_of_answered (s : KademliaNode) (start : Int) {settlements : List Settlement}
    (hkeys : RoutingTable.peerKeys bytesToUnprefixedHex newPeer ≠ [])
    (hlength : settlements.length = oldPeers.length) (hne : settlements ≠ [])
    (hanswered : ∀ x ∈ settlements, x.failed = false) :
    (s.pingRound bytesToUnprefixedHex stack start oldPeers newPeer settlements).1.isBanned
      bytesToUnprefixedHex (endTime start settlements) newPeer = true := by
  obtain ⟨earlier, x, rfl⟩ : ∃ earlier x, settlements = earlier ++ [x] :=
    ⟨settlements.dropLast, settlements.getLast hne, (dropLast_append_getLast hne).symm⟩
  rw [forall_mem_append, forall_mem_singleton] at hanswered
  have hcountP : earlier.countP (fun x => !x.failed) = earlier.length := by
    apply List.countP_eq_length.mpr
    intro y hy
    rw [hanswered.1 y hy]
    rfl
  rw [length_append, length_singleton] at hlength
  have hfew : 0 + earlier.countP (fun x => !x.failed) < oldPeers.length := by
    rw [hcountP, ← hlength, Nat.zero_add]
    exact Nat.lt_succ_self _
  obtain ⟨hcount, -, herr⟩ := foldl_settle_unended bytesToUnprefixedHex stack newPeer
    (s := ((s.onKBucketPing bytesToUnprefixedHex start oldPeers newPeer).1, ⟨0, false, []⟩)) hfew
  rw [pingRound, foldl_append, endTime, getLast?_concat, foldl_cons, foldl_nil]
  generalize earlier.foldl (settle bytesToUnprefixedHex stack oldPeers newPeer)
    ((s.onKBucketPing bytesToUnprefixedHex start oldPeers newPeer).1, ⟨0, false, []⟩) = reached
    at hcount herr
  obtain ⟨node, round⟩ := reached
  -- the counter reaches the end with this answer, and no error was seen
  have hend : ¬ round.count + 1 < oldPeers.length := by
    rw [show round.count = 0 + earlier.countP (fun x => !x.failed) from hcount, hcountP, ← hlength,
      Nat.zero_add]
    exact Nat.lt_irrefl _
  have hnoError : round.err = false := herr hanswered.1
  simp only [settle, hanswered.2, Bool.false_eq_true, if_false, onAnswer, hend, hnoError]
  exact isBanned_ban node x.now hkeys

/-- The hexadecimal text of the ids below. -/
def sampleHex : Bytes → String
  | [1] => "01"
  | [2] => "02"
  | [3] => "03"
  | _ => ""

/-- A node whose bucket has the contacts `01` and `02`. -/
def sampleNode : KademliaNode where
  _banlist := .new
  _kbucket := (RoutingTable.new [0] (some 2) (some 2)).run sampleHex
    [.add 9 (KBucket.peerWithId [1]), .add 9 (KBucket.peerWithId [2])]

end KademliaNode
