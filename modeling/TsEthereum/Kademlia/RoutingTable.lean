-- SUMMARY: The routing table: a k-bucket with a map from lookup keys to peers that follows the bucket's events, and their agreement in every run.
import TsEthereum.Kademlia.BucketRuns

/-!
# Routing table

The map `_peers` is only written by the handlers of the events `added` and `removed`, and
`add` asks the map and not the tree whether a peer exists. The hexadecimal text of an id
is a parameter, since it comes from another package.
-/

open List Option

/-- What a peer is looked up by. -/
inductive PeerLookup where
  | id (id : Bytes)
  | key (key : String)
  | peer (peer : PeerInfo)

structure RoutingTable where
  _peers : OrderedMap String Contact
  _kbucket : KBucket

namespace RoutingTable

variable (bytesToUnprefixedHex : Bytes → String)

def KBUCKET_SIZE : Nat := 16

def KBUCKET_CONCURRENCY : Nat := 3

def new (localNodeId : Bytes) (k concurrency : Option Nat) : RoutingTable :=
  ⟨.empty, .new localNodeId (k.getD KBUCKET_SIZE) (concurrency.getD KBUCKET_CONCURRENCY)⟩

def peerKeys (peer : PeerInfo) : List String :=
  (peer.id.map bytesToUnprefixedHex).toList ++
    match peer.address, peer.tcpPort with
    | some address, some tcpPort => [address ++ ":" ++ toString tcpPort]
    | _, _ => []

def getKeys : PeerLookup → List String
  | .id id => [bytesToUnprefixedHex id]
  | .key key => [key]
  | .peer peer => peerKeys bytesToUnprefixedHex peer

/-- The handlers of the bucket's events. -/
def onEvent (peers : OrderedMap String Contact) : KBucketEvent → OrderedMap String Contact
  | .added peer => (peerKeys bytesToUnprefixedHex peer.info).foldl (fun peers key => peers.set key peer) peers
  | .removed peer => (peerKeys bytesToUnprefixedHex peer.info).foldl (fun peers key => peers.delete key) peers
  | .ping _ _ => peers
  | .updated _ _ => peers

/-- Adds a peer; `stack` bounds the calls in the bucket. All events are forwarded. -/
def add (stack : Nat) (t : RoutingTable) (peer : PeerInfo) :
    RoutingTable × Except KBucketError (List KBucketEvent) :=
  let isExists := (peerKeys bytesToUnprefixedHex peer).any (fun key => t._peers.has key)
  if isExists then (t, .ok [])
  else
    match t._kbucket.add stack peer with
    | (kbucket, .error e) => ({ t with _kbucket := kbucket }, .error e)
    | (kbucket, .ok events) =>
      (⟨events.foldl (onEvent bytesToUnprefixedHex) t._peers, kbucket⟩, .ok events)

def get (t : RoutingTable) (obj : PeerLookup) : Option Contact :=
  (getKeys bytesToUnprefixedHex obj).findSome? (fun key => t._peers.get key)

def has (t : RoutingTable) (obj : PeerLookup) : Bool := (t.get bytesToUnprefixedHex obj).isSome

def getAll (t : RoutingTable) : List Contact := t._kbucket.toArray

/-- Removes the peer that is found. -/
def remove (t : RoutingTable) (obj : PeerLookup) : RoutingTable × List KBucketEvent :=
  match t.get bytesToUnprefixedHex obj with
  | none => (t, [])
  | some peer =>
    let (kbucket, events) := t._kbucket.remove peer.id
    (⟨events.foldl (onEvent bytesToUnprefixedHex) t._peers, kbucket⟩, events)

def count (t : RoutingTable) : Nat := t._kbucket.count

/-! ## The map and the tree -/

/-- The map has exactly the keys of the stored peers, each with its peer. -/
structure Agrees (t : RoutingTable) : Prop where
  wellFormed : t._kbucket.WellFormed
  lookup : ∀ key peer, t._peers.get key = some peer ↔
    peer ∈ t._kbucket.toArray ∧ key ∈ peerKeys bytesToUnprefixedHex peer.info

theorem agrees_new (localNodeId : Bytes) (k concurrency : Option Nat) :
    Agrees bytesToUnprefixedHex (new localNodeId k concurrency) where
  wellFormed := KBucket.wellFormed_new localNodeId _ _
  lookup := fun _ _ => ⟨nofun, fun h => absurd h.1 not_mem_nil⟩

variable {bytesToUnprefixedHex}

theorem id_mem_peerKeys (peer : Contact) :
    bytesToUnprefixedHex peer.id ∈ peerKeys bytesToUnprefixedHex peer.info := by
  have hid : peer.info.id = some peer.id := (some_get peer.hasId).symm
  unfold peerKeys
  rw [hid]
  exact mem_append_left _ (mem_singleton_self _)

variable {t : RoutingTable}

section

variable (h : Agrees bytesToUnprefixedHex t)
include h

/-- Peers that are stored in other leaves or after splits are still the same peers. -/
theorem Agrees.of_perm {kbucket : KBucket}
    (hwf : kbucket.WellFormed) (hperm : kbucket.toArray.Perm t._kbucket.toArray) :
    Agrees bytesToUnprefixedHex { t with _kbucket := kbucket } where
  wellFormed := hwf
  lookup := fun key peer => by
    rw [h.lookup, hperm.mem_iff]

theorem Agrees.eq_of_key {x y : Contact}
    (hx : x ∈ t._kbucket.toArray) (hy : y ∈ t._kbucket.toArray) {key : String}
    (hkx : key ∈ peerKeys bytesToUnprefixedHex x.info)
    (hky : key ∈ peerKeys bytesToUnprefixedHex y.info) : x = y :=
  some.inj (((h.lookup key x).mpr ⟨hx, hkx⟩).symm.trans ((h.lookup key y).mpr ⟨hy, hky⟩))

/-- A peer that the map does not know shares no key with a stored one. -/
theorem Agrees.new_keys {peer : PeerInfo}
    (hnew : (peerKeys bytesToUnprefixedHex peer).any (fun key => t._peers.has key) = false)
    {key : String} (hkey : key ∈ peerKeys bytesToUnprefixedHex peer) {x : Contact}
    (hx : x ∈ t._kbucket.toArray) : key ∉ peerKeys bytesToUnprefixedHex x.info := by
  intro hkx
  have hhas := any_eq_false.mp hnew key hkey
  rw [OrderedMap.has, (h.lookup key x).mpr ⟨hx, hkx⟩] at hhas
  exact hhas rfl

end

theorem Agrees.add {t : RoutingTable} (h : Agrees bytesToUnprefixedHex t) (stack : Nat)
    (peer : PeerInfo) : Agrees bytesToUnprefixedHex (t.add bytesToUnprefixedHex stack peer).1 := by
  unfold RoutingTable.add
  dsimp only
  cases hnew : (peerKeys bytesToUnprefixedHex peer).any (fun key => t._peers.has key) with
  | true => exact h
  | false =>
    rw [if_neg Bool.false_ne_true]
    unfold KBucket.add
    cases hcontact : peer.toContact with
    | none => exact h
    | some contact =>
      have hinfo : contact.info = peer := by
        unfold PeerInfo.toContact at hcontact
        split at hcontact
        · rw [← some.inj hcontact]
        · cases hcontact
      rw [← hinfo] at hnew
      have hspec := h.wellFormed.addContact_spec stack contact
      have hwf := h.wellFormed.addContact stack contact
      dsimp only
      generalize KBucket.addContact stack t._kbucket contact = r at hspec hwf ⊢
      cases hspec with
      | overflow hperm => exact h.of_perm hwf hperm
      | refused habsent hperm => exact h.of_perm hwf hperm
      | updated hthere hids =>
        -- the id of a stored peer is a key, so the map knows the peer
        obtain ⟨x, hx, hid⟩ := hthere
        exact absurd (hid ▸ id_mem_peerKeys x) (h.new_keys hnew (id_mem_peerKeys contact) hx)
      | added habsent hmem hcount =>
        refine ⟨hwf, fun key x => ?_⟩
        dsimp only [foldl_cons, foldl_nil, onEvent]
        rw [OrderedMap.get_foldl_set, hmem]
        split
        · rename_i hkey
          constructor
          · intro hx
            obtain rfl := some.inj hx
            exact ⟨.inl rfl, hkey⟩
          · rintro ⟨rfl | hx, hkx⟩
            · rfl
            · exact absurd hkx (h.new_keys hnew hkey hx)
        · rename_i hkey
          rw [h.lookup]
          constructor
          · exact fun hx => ⟨.inr hx.1, hx.2⟩
          · rintro ⟨rfl | hx, hkx⟩
            · exact absurd hkx hkey
            · exact ⟨hx, hkx⟩

variable {obj : PeerLookup}

theorem Agrees.mem_of_get (h : Agrees bytesToUnprefixedHex t) {peer : Contact}
    (hget : t.get bytesToUnprefixedHex obj = some peer) : peer ∈ t._kbucket.toArray := by
  obtain ⟨key, -, hkey⟩ := exists_of_findSome?_eq_some hget
  exact ((h.lookup key peer).mp hkey).1

theorem Agrees.remove (h : Agrees bytesToUnprefixedHex t) (obj : PeerLookup) :
    Agrees bytesToUnprefixedHex (t.remove bytesToUnprefixedHex obj).1 := by
  unfold RoutingTable.remove
  cases hget : t.get bytesToUnprefixedHex obj with
  | none => exact h
  | some peer =>
    have hmem := h.mem_of_get hget
    have hspec := h.wellFormed.remove_spec peer.id
    have hwf := h.wellFormed.remove peer.id
    dsimp only
    generalize t._kbucket.remove peer.id = r at hspec hwf ⊢
    cases hspec with
    | absent habsent => exact absurd rfl (habsent peer hmem)
    | removed hthere hid hperm =>
      rename_i kbucket contact
      obtain rfl : contact = peer := h.wellFormed.eq_of_id_eq hthere hmem hid
      have hrest (x : Contact) : x ∈ kbucket.toArray ↔ x ∈ t._kbucket.toArray ∧ x ≠ contact := by
        have hdistinct := hperm.pairwise h.wellFormed.distinct (fun hne => hne.symm)
        rw [hperm.mem_iff, mem_cons]
        constructor
        · intro hx
          refine ⟨.inr hx, ?_⟩
          rintro rfl
          exact (pairwise_cons.mp hdistinct).1 x hx rfl
        · rintro ⟨rfl | hx, hne⟩
          · exact absurd rfl hne
          · exact hx
      refine ⟨hwf, fun key x => ?_⟩
      dsimp only [foldl_cons, foldl_nil, onEvent]
      rw [OrderedMap.get_foldl_delete, hrest]
      split
      · rename_i hkey
        refine ⟨by rintro ⟨⟩, fun hx => ?_⟩
        exact absurd (h.eq_of_key hx.1.1 hthere hx.2 hkey) hx.1.2
      · rename_i hkey
        rw [h.lookup]
        refine ⟨fun hx => ⟨⟨hx.1, ?_⟩, hx.2⟩, fun hx => ⟨hx.1.1, hx.2⟩⟩
        rintro rfl
        exact hkey hx.2

/-! ## Runs -/

/-- A call from outside; an `add` comes with the calls that the stack has room for. -/
inductive Call where
  | add (stack : Nat) (peer : PeerInfo)
  | remove (obj : PeerLookup)

variable (bytesToUnprefixedHex) in
def call (t : RoutingTable) : Call → RoutingTable
  | .add stack peer => (t.add bytesToUnprefixedHex stack peer).1
  | .remove obj => (t.remove bytesToUnprefixedHex obj).1

variable (bytesToUnprefixedHex) in
def run (t : RoutingTable) (calls : List Call) : RoutingTable :=
  calls.foldl (call bytesToUnprefixedHex) t

theorem Agrees.call (h : Agrees bytesToUnprefixedHex t) (c : Call) :
    Agrees bytesToUnprefixedHex (t.call bytesToUnprefixedHex c) := by
  cases c with
  | add stack peer => exact h.add stack peer
  | remove obj => exact h.remove obj

theorem Agrees.run {t : RoutingTable} (h : Agrees bytesToUnprefixedHex t) (calls : List Call) :
    Agrees bytesToUnprefixedHex (t.run bytesToUnprefixedHex calls) := by
  induction calls generalizing t with
  | nil => exact h
  | cons c calls ih => exact ih (h.call c)

theorem Agrees.get_eq_some (h : Agrees bytesToUnprefixedHex t) {peer : Contact} :
    t.get bytesToUnprefixedHex obj = some peer ↔
      ∃ before key after, getKeys bytesToUnprefixedHex obj = before ++ key :: after ∧
        peer ∈ t.getAll ∧ key ∈ peerKeys bytesToUnprefixedHex peer.info ∧
        ∀ key' ∈ before, ∀ x ∈ t.getAll, key' ∉ peerKeys bytesToUnprefixedHex x.info := by
  have hnone (key : String) : t._peers.get key = none ↔
      ∀ x ∈ t.getAll, key ∉ peerKeys bytesToUnprefixedHex x.info := by
    constructor
    · intro hkey x hx hkx
      rw [(h.lookup key x).mpr ⟨hx, hkx⟩] at hkey
      cases hkey
    · intro hkey
      by_contra hne
      obtain ⟨x, hx⟩ := Option.ne_none_iff_exists'.mp hne
      exact hkey x ((h.lookup key x).mp hx).1 ((h.lookup key x).mp hx).2
  unfold RoutingTable.get
  rw [findSome?_eq_some_iff]
  simp only [h.lookup, hnone, and_assoc]
  rfl

theorem Agrees.has_iff (h : Agrees bytesToUnprefixedHex t) :
    t.has bytesToUnprefixedHex obj = true ↔ ∃ key ∈ getKeys bytesToUnprefixedHex obj,
      ∃ peer ∈ t.getAll, key ∈ peerKeys bytesToUnprefixedHex peer.info := by
  unfold RoutingTable.has RoutingTable.get
  rw [findSome?_isSome_iff]
  simp only [isSome_iff_exists, h.lookup]
  exact Iff.rfl

theorem count_eq_length (b : KBucket) : b.count = b.toArray.length := by
  have hcount (t : KBucketNode) (path : List Bool) :
      KBucket.countNode t = ((BitTree.leaves t path).flatMap (fun e => e.2.contacts)).length := by
    induction t generalizing path with
    | leaf node => simp [KBucket.countNode, BitTree.leaves]
    | inner left right ihl ihr =>
      rw [KBucket.countNode, ihl (path ++ [false]), ihr (path ++ [true])]
      simp [BitTree.leaves]
  exact hcount b._root []

/-- After every run the map has exactly the keys of the stored peers, and what is looked up
is what the tree has. -/
theorem run_routingTable (bytesToUnprefixedHex : Bytes → String) (localNodeId : Bytes)
    (k concurrency : Option Nat) (calls : List Call) :
    let t := run bytesToUnprefixedHex (new localNodeId k concurrency) calls
    (∀ peer, peer ∈ t.getAll ↔ t._kbucket.get peer.id = some peer) ∧
    (∀ key peer, t._peers.get key = some peer ↔
      peer ∈ t.getAll ∧ key ∈ peerKeys bytesToUnprefixedHex peer.info) ∧
    t.getAll.Pairwise (fun x y => ∀ key ∈ peerKeys bytesToUnprefixedHex x.info,
      key ∉ peerKeys bytesToUnprefixedHex y.info) ∧
    (∀ obj peer, t.get bytesToUnprefixedHex obj = some peer ↔
      ∃ before key after, getKeys bytesToUnprefixedHex obj = before ++ key :: after ∧
        peer ∈ t.getAll ∧ key ∈ peerKeys bytesToUnprefixedHex peer.info ∧
        ∀ key' ∈ before, ∀ x ∈ t.getAll, key' ∉ peerKeys bytesToUnprefixedHex x.info) ∧
    (∀ obj, t.has bytesToUnprefixedHex obj = true ↔ ∃ key ∈ getKeys bytesToUnprefixedHex obj,
      ∃ peer ∈ t.getAll, key ∈ peerKeys bytesToUnprefixedHex peer.info) ∧
    t.count = t.getAll.length := by
  have h := (agrees_new bytesToUnprefixedHex localNodeId k concurrency).run calls
  intro t
  refine ⟨fun peer => ?_, h.lookup, ?_, fun _ _ => h.get_eq_some, fun _ => h.has_iff,
    count_eq_length t._kbucket⟩
  · rw [h.wellFormed.get_eq_some]
    exact (and_iff_left rfl).symm
  · refine h.wellFormed.distinct.imp_of_mem (fun hx hy hne key hkx hky => hne ?_)
    rw [h.eq_of_key hx hy hkx hky]

end RoutingTable
