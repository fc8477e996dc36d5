-- SUMMARY: Both ends of a connection negotiate the same protocols, and which capabilities they leave out.
import TsEthereum.Base.StrictSort
import TsEthereum.Base.Caching
import TsEthereum.Base.Fallible
import TsEthereum.P2p.Changes

/-!
# Negotiation

Each end goes through the pairs of a capability of the peer and one of its own, and
keeps the latest version of each name. What it keeps does not depend on the order of the
two lists, so the ends agree.
-/

open List Except

namespace Rlpx

open Program OrderedMap

namespace Connection

/-! ## The order of names -/

theorem unitOrder_injective : Function.Injective unitOrder := by
  intro c c' h
  have hlt := c.valid
  have hlt' := c'.valid
  unfold unitOrder at h
  apply Char.ext
  apply UInt32.toNat_inj.mp
  change c.toNat = c'.toNat
  have hbound : c.toNat < 0x110000 := by
    rcases hlt with hlt | ⟨-, hlt⟩
    · exact Nat.lt_trans hlt (by decide)
    · exact hlt
  have hbound' : c'.toNat < 0x110000 := by
    rcases hlt' with hlt' | ⟨-, hlt'⟩
    · exact Nat.lt_trans hlt' (by decide)
    · exact hlt'
  split at h <;> split at h <;> omega

theorem nameLt_trans {a b c : String} (h : nameLt a b = true) (h' : nameLt b c = true) :
    nameLt a c = true :=
  decide_eq_true (lt_trans (of_decide_eq_true h) (of_decide_eq_true h'))

theorem nameLt_irrefl (a : String) : ¬nameLt a a = true := fun h => lt_irrefl _ (of_decide_eq_true h)

/-- Two names are the same, or one is before the other. -/
theorem nameLt_or_nameLt {a b : String} (h : a ≠ b) : nameLt a b = true ∨ nameLt b a = true := by
  have hunits : a.toList.map unitOrder ≠ b.toList.map unitOrder := fun hsame =>
    h (String.toList_inj.mp (List.map_injective_iff.mpr unitOrder_injective hsame))
  exact (lt_or_gt_of_ne hunits).imp decide_eq_true decide_eq_true

/-! ## Shared capabilities -/

/-- The pairs in the order of the nested loops. -/
def loopPairs (ours : List Capability) (theirs : List (String × Nat)) :
    List ((String × Nat) × Capability) :=
  theirs.flatMap fun item => ours.map fun c => (item, c)

theorem mem_loopPairs {ours : List Capability} {theirs : List (String × Nat)} {item : String × Nat}
    {c : Capability} : (item, c) ∈ loopPairs ours theirs ↔ item ∈ theirs ∧ c ∈ ours := by
  simp only [loopPairs, mem_flatMap, mem_map, Prod.mk.injEq]
  constructor
  · rintro ⟨item, hitem, c, hc, rfl, rfl⟩
    exact ⟨hitem, hc⟩
  · rintro ⟨hitem, hc⟩
    exact ⟨item, hitem, c, hc, rfl, rfl⟩

theorem sharedCapabilities_eq (ours : List Capability) (theirs : List (String × Nat)) :
    sharedCapabilities ours theirs =
      (loopPairs ours theirs).foldl (fun shared p => share p.1 shared p.2) .empty := by
  unfold sharedCapabilities loopPairs
  rw [foldl_flatMap]
  simp only [foldl_map]

/-- What has been kept after some pairs: under each name a capability that both have, which no
pair of that name has in a later version. -/
structure Keeping (pairs : List ((String × Nat) × Capability)) (shared : OrderedMap String Capability) :
    Prop where
  sound : ∀ {name c}, shared.get name = some c →
    name ≠ "__proto__" ∧ c.name = name ∧ ((c.name, c.version), c) ∈ pairs
  latest : ∀ {c : Capability}, ((c.name, c.version), c) ∈ pairs → c.name ≠ "__proto__" →
    ∃ c', shared.get c.name = some c' ∧ c.version ≤ c'.version

variable {pairs : List ((String × Nat) × Capability)} {shared : OrderedMap String Capability}

/-- One more pair: nothing that is kept is lost to an earlier version, and the capability of the
pair is kept, or a later version of it, where both have it. -/
theorem Keeping.push {shared' : OrderedMap String Capability} (h : Keeping pairs shared)
    {item : String × Nat} {c : Capability}
    (hsound : ∀ {name c₀}, shared'.get name = some c₀ → shared.get name = some c₀ ∨
      name ≠ "__proto__" ∧ c₀ = c ∧ c.name = name ∧ item = (c.name, c.version))
    (hkept : ∀ {name c₀}, shared.get name = some c₀ →
      ∃ c', shared'.get name = some c' ∧ c₀.version ≤ c'.version)
    (hnew : item = (c.name, c.version) → c.name ≠ "__proto__" →
      ∃ c', shared'.get c.name = some c' ∧ c.version ≤ c'.version) :
    Keeping (pairs ++ [(item, c)]) shared' where
  sound {name c₀} hget := by
    rcases hsound hget with hold | ⟨hproto, rfl, hname, rfl⟩
    · obtain ⟨hproto, hname, hmem⟩ := h.sound hold
      exact ⟨hproto, hname, mem_append_left _ hmem⟩
    · exact ⟨hproto, hname, mem_append_right _ (mem_singleton_self _)⟩
  latest {c₀} hmem hproto := by
    rcases mem_append.mp hmem with hold | hlast
    · obtain ⟨c', hget, hle⟩ := h.latest hold hproto
      obtain ⟨c'', hget', hle'⟩ := hkept hget
      exact ⟨c'', hget', Nat.le_trans hle hle'⟩
    · obtain ⟨rfl, rfl⟩ := Prod.mk.inj (mem_singleton.mp hlast)
      exact hnew rfl hproto

theorem keeping_share (h : Keeping pairs shared) (item : String × Nat) (c : Capability) :
    Keeping (pairs ++ [(item, c)]) (share item shared c) := by
  unfold share
  split
  · next hother =>
    refine h.push .inl (fun hget => ⟨_, hget, Nat.le_refl _⟩) fun hitem => ?_
    rcases hother with hname | hversion
    · exact absurd (congrArg Prod.fst hitem).symm hname
    · exact absurd (congrArg Prod.snd hitem).symm hversion
  · next hsame =>
    obtain ⟨hname, hversion⟩ := not_or.mp hsame
    have hitem : item = (c.name, c.version) :=
      Prod.ext (not_not.mp hname).symm (not_not.mp hversion).symm
    split
    · next hlater =>
      obtain ⟨other, hother, hlt⟩ := (Option.any_eq_true _ _).mp hlater
      exact h.push .inl (fun hget => ⟨_, hget, Nat.le_refl _⟩) fun _ _ =>
        ⟨other, hother, Nat.le_of_lt (of_decide_eq_true hlt)⟩
    · next hlater =>
      split
      · next hproto =>
        exact h.push .inl (fun hget => ⟨_, hget, Nat.le_refl _⟩) fun _ hnot => absurd hproto hnot
      · next hproto =>
        apply h.push
        · intro name c₀ hget
          rw [get_set] at hget
          split at hget
          · next hname =>
            exact .inr ⟨hname ▸ hproto, (Option.some.inj hget).symm, hname.symm, hitem⟩
          · exact .inl hget
        · intro name c₀ hget
          rw [get_set]
          split
          · next hname =>
            -- what is replaced is no later
            rw [hname] at hget
            rw [hget] at hlater
            exact ⟨c, rfl, Nat.not_lt.mp fun hlt => hlater (decide_eq_true hlt)⟩
          · exact ⟨c₀, hget, Nat.le_refl _⟩
        · intro _ _
          exact ⟨c, (get_set _ _ _ _).trans (if_pos rfl), Nat.le_refl _⟩

theorem keeping_foldl {done : List ((String × Nat) × Capability)} (h : Keeping done shared) :
    Keeping (done ++ pairs) (pairs.foldl (fun shared p => share p.1 shared p.2) shared) := by
  induction pairs generalizing done shared with
  | nil => rwa [append_nil]
  | cons p pairs ih =>
    have hnext := ih (keeping_share h p.1 p.2)
    rwa [append_assoc, singleton_append] at hnext

theorem keeping_shared (ours : List Capability) (theirs : List (String × Nat)) :
    Keeping (loopPairs ours theirs) (sharedCapabilities ours theirs) := by
  rw [sharedCapabilities_eq]
  have hempty : Keeping [] .empty := ⟨fun hget => (nomatch hget), fun hmem => (nomatch hmem)⟩
  exact keeping_foldl hempty

/-! ## The capabilities of the protocols -/

/-- The negotiated capabilities, in the order of their offsets. -/
def selected (ours : List Capability) (theirs : List (String × Nat)) : List Capability :=
  ((sharedCapabilities ours theirs).entries.map Prod.snd).mergeSort fun c c' => nameLt c.name c'.name

section
variable {ours : List Capability} {theirs : List (String × Nat)} {c : Capability}

theorem mem_selected : c ∈ selected ours theirs ↔ (sharedCapabilities ours theirs).get c.name = some c := by
  have hkeeping := keeping_shared ours theirs
  unfold selected
  rw [mem_mergeSort, mem_map]
  constructor
  · rintro ⟨e, he, rfl⟩
    have hget := OrderedMap.get_of_mem he
    rwa [(hkeeping.sound hget).2.1]
  · exact fun hget => ⟨_, OrderedMap.mem_of_get hget, rfl⟩

theorem sorted_selected : (selected ours theirs).Pairwise fun c c' => nameLt c.name c'.name = true := by
  have hkeeping := keeping_shared ours theirs
  apply @StrictSort.pairwise_mergeSort Capability (fun c c' => nameLt c.name c'.name) fun _ _ _ => nameLt_trans
  apply pairwise_map.mpr
  refine Pairwise.imp_of_mem ?_ (pairwise_map.mp (sharedCapabilities ours theirs).nodup)
  intro e e' he he' hne
  apply nameLt_or_nameLt
  rwa [(hkeeping.sound (get_of_mem he)).2.1, (hkeeping.sound (get_of_mem he')).2.1]

theorem selected_common (h : c ∈ selected ours theirs) :
    c ∈ ours ∧ (c.name, c.version) ∈ theirs ∧ c.name ≠ "__proto__" := by
  obtain ⟨hproto, -, hmem⟩ := (keeping_shared ours theirs).sound (mem_selected.mp h)
  obtain ⟨htheirs, hours⟩ := mem_loopPairs.mp hmem
  exact ⟨hours, htheirs, hproto⟩

theorem selected_latest (hours : c ∈ ours) (htheirs : (c.name, c.version) ∈ theirs)
    (hproto : c.name ≠ "__proto__") :
    ∃ c' ∈ selected ours theirs, c'.name = c.name ∧ c.version ≤ c'.version := by
  have hkeeping := keeping_shared ours theirs
  obtain ⟨c', hget, hle⟩ := hkeeping.latest (mem_loopPairs.mpr ⟨htheirs, hours⟩) hproto
  have hname := (hkeeping.sound hget).2.1
  exact ⟨c', mem_selected.mpr (hname ▸ hget), hname, hle⟩

/-- One capability of each name. -/
theorem selected_unique {c' : Capability} (h : c ∈ selected ours theirs) (h' : c' ∈ selected ours theirs)
    (hname : c'.name = c.name) : c' = c := by
  have hget := mem_selected.mp h'
  rw [hname] at hget
  exact Option.some.inj (hget.symm.trans (mem_selected.mp h))

end

/-! ## Agreement -/

/-- What a HELLO of these capabilities says. -/
def announced (caps : List Capability) : List (String × Nat) := caps.map fun c => (c.name, c.version)

variable {caps : List Capability}

theorem mem_announced {name : String} {version : Nat} :
    (name, version) ∈ announced caps ↔ ∃ c ∈ caps, c.name = name ∧ c.version = version := by
  simp only [announced, mem_map, Prod.mk.injEq]

/-- Equal names and versions have equal message counts. -/
def EqualCounts (ours theirs : List Capability) : Prop :=
  ∀ c ∈ ours, ∀ c' ∈ theirs, c.name = c'.name → c.version = c'.version → c.length = c'.length

section
variable {ours theirs : List Capability}

theorem EqualCounts.symm (h : EqualCounts ours theirs) : EqualCounts theirs ours :=
  fun c hc c' hc' hname hversion => (h c' hc' c hc hname.symm hversion.symm).symm

theorem EqualCounts.eq (h : EqualCounts ours theirs) {c c' : Capability} (hc : c ∈ ours) (hc' : c' ∈ theirs)
    (hname : c.name = c'.name) (hversion : c.version = c'.version) : c = c' := by
  have hlength := h c hc c' hc' hname hversion
  cases c
  cases c'
  cases hname
  cases hversion
  cases hlength
  rfl

/-- What one end selects the other end selects. -/
theorem selected_mono (hcounts : EqualCounts ours theirs) {c : Capability}
    (h : c ∈ selected ours (announced theirs)) : c ∈ selected theirs (announced ours) := by
  obtain ⟨hours, htheirs, hproto⟩ := selected_common h
  obtain ⟨b, hb, hname, hversion⟩ := mem_announced.mp htheirs
  have hbc : b = c := (hcounts.eq hours hb hname.symm hversion.symm).symm
  subst hbc
  obtain ⟨c', hselected, hname', hle⟩ :=
    selected_latest hb (mem_announced.mpr ⟨b, hours, rfl, rfl⟩) hproto
  -- the latest version that the other end has is no later than the one selected here
  obtain ⟨htheirs', hours', hproto'⟩ := selected_common hselected
  obtain ⟨a, ha, haname, haversion⟩ := mem_announced.mp hours'
  have hac : a = c' := hcounts.eq ha htheirs' haname haversion
  subst hac
  obtain ⟨d, hd, hdname, hdle⟩ :=
    selected_latest ha (mem_announced.mpr ⟨a, htheirs', rfl, rfl⟩) hproto'
  obtain rfl := selected_unique h hd (hdname.trans hname')
  obtain rfl := hcounts.eq ha hb hname' (Nat.le_antisymm hdle hle)
  exact hselected

theorem nodup_selected (theirs : List (String × Nat)) : (selected ours theirs).Nodup := by
  refine List.Pairwise.imp ?_ sorted_selected
  rintro c _ hlt rfl
  exact nameLt_irrefl _ hlt

theorem selected_agree (hcounts : EqualCounts ours theirs) :
    selected ours (announced theirs) = selected theirs (announced ours) := by
  have hperm : (selected ours (announced theirs)).Perm (selected theirs (announced ours)) :=
    (perm_ext_iff_of_nodup (nodup_selected _) (nodup_selected _)).mpr fun _ =>
      ⟨selected_mono hcounts, selected_mono hcounts.symm⟩
  refine hperm.eq_of_pairwise ?_ sorted_selected sorted_selected
  intro c c' _ _ hlt hlt'
  exact absurd (nameLt_trans hlt hlt') (nameLt_irrefl _)

end

/-! ## Offsets -/

theorem map_assignOffsets (offset : Nat) (caps : List Capability) :
    (assignOffsets offset caps).map ProtocolDescriptor.protocol = caps := by
  induction caps generalizing offset with
  | nil => rfl
  | cons c caps ih => exact congrArg (c :: ·) (ih _)

theorem length_of_mem_assignOffsets {offset : Nat} {obj : ProtocolDescriptor}
    (h : obj ∈ assignOffsets offset caps) : obj.length = obj.protocol.length := by
  induction caps generalizing offset with
  | nil => cases h
  | cons c caps ih =>
    rcases mem_cons.mp h with rfl | h
    · rfl
    · exact ih h

theorem disjoint_assignOffsets (offset : Nat) (caps : List Capability) :
    (assignOffsets offset caps).Pairwise fun obj obj' => obj.offset + obj.length ≤ obj'.offset := by
  induction caps generalizing offset with
  | nil => exact .nil
  | cons c caps ih => exact .cons (fun _ h => assignOffsets_ge h) (ih _)

/-! ## HELLO -/

/-- What an end does after the negotiation leaves its protocols. -/
structure SameProtocols (c c' : Connection) : Prop where
  protocols : c'.protocols = c.protocols

instance : IsPreorder Connection SameProtocols where
  refl _ := ⟨rfl⟩
  trans _ _ _ h h' := ⟨h'.protocols.trans h.protocols⟩

variable {env : Env}

theorem outgoing_sameProtocols : Outgoing env SameProtocols :=
  ⟨fun _ _ => ⟨rfl⟩, fun _ _ => ⟨rfl⟩, fun _ _ => ⟨rfl⟩, fun _ _ => ⟨rfl⟩⟩

theorem sameProtocols_disconnect (reason : Nat) : (disconnect env reason).Keeps SameProtocols :=
  outgoing_sameProtocols.keeps_disconnect reason fun _ => ⟨rfl⟩

def Holds (ours : List Capability) (theirs : List (String × Nat)) (c : Connection) : Prop :=
  c.protocols = negotiate ours theirs

theorem Holds.keep {α : Type} {p : Action α} {ours : List Capability} {theirs : List (String × Nat)}
    {c : Connection} (hkeeps : p.Keeps SameProtocols) (h : Holds ours theirs c) :
    p.wp (fun _ c' => Holds ours theirs c') (fun _ c' => Holds ours theirs c') c :=
  wp_mono (hkeeps.wp c) (fun _ _ hsame => hsame.protocols.trans h) fun _ _ hsame => hsame.protocols.trans h

/-- An end that does not filter its peer negotiates its protocols. -/
theorem acceptHello_holds {hello : HelloMessage} {c : Connection} (hfilter : filtered env c hello = false) :
    (acceptHello env hello).wp (fun _ c' => Holds c.options.capabilities hello.capabilities c')
      (fun _ c' => Holds c.options.capabilities hello.capabilities c') c := by
  simp only [acceptHello, wp_bind, wp_get, hfilter, Bool.false_eq_true, if_false, wp_modify]
  apply wp_ite
  · intro _
    exact Holds.keep (sameProtocols_disconnect _) rfl
  · intro _
    simp only [wp_bind, wp_modify]
    exact Holds.keep (keeps_when (@outgoing_sameProtocols env).keeps_onConnect) rfl

/-- An end has processed the HELLO of its peer: it took the identity and the client for what it
expects, and negotiated. -/
structure Processed (env : Env) (peer : Options) (c c' : Connection) : Prop where
  run : handleHello env (helloPayload peer) c = (.ok (), c')
  identity : ∀ remoteId ∈ c.remoteId, equalsBytes remoteId (some (.bytes peer.nodeId)) = .ok true
  client : ∀ filter ∈ c.options.remoteClientIdFilter.getD [],
    includesIgnoringCase env (env.bytesToUtf8 peer.clientId) filter = false

/-- The names that are sent are read as they are. -/
def ReadsNames (env : Env) (caps : List Capability) : Prop :=
  ∀ c ∈ caps, env.bytesToUtf8 c.name.toUTF8.toList = c.name

theorem bytesToInt_intToBytes {n m : Nat} (h : bytesToInt (intToBytes n) = .ok m) : m = n := by
  unfold bytesToInt at h
  rw [bytesToNat_intToBytes] at h
  split at h
  · exact (ok.inj h).symm
  · cases h

/-- A capability as an element of a HELLO. -/
def capabilityItem (c : Capability) : Rlp.Item :=
  .list [.bytes c.name.toUTF8.toList, .bytes (intToBytes c.version)]

theorem parseCapability_eq {c : Capability} {read : String × Nat}
    (hname : env.bytesToUtf8 c.name.toUTF8.toList = c.name)
    (h : parseCapability env (capabilityItem c) = .ok read) : read = (c.name, c.version) := by
  obtain ⟨name, hread, hrest⟩ := bind_eq_ok.mp h
  obtain ⟨version, hversion, hpair⟩ := bind_eq_ok.mp hrest
  obtain rfl := ok.inj hpair
  obtain rfl := ok.inj hread
  exact Prod.ext hname (bytesToInt_intToBytes hversion)

theorem parseCapabilities_eq {reads : List (String × Nat)} (hnames : ReadsNames env caps)
    (h : (caps.map capabilityItem).mapM (parseCapability env) = .ok reads) :
    reads = announced caps := by
  induction caps generalizing reads with
  | nil => exact (ok.inj h).symm
  | cons c caps ih =>
    rw [map_cons, mapM_cons] at h
    obtain ⟨read, hread, hrest⟩ := bind_eq_ok.mp h
    obtain ⟨reads', hreads, hcons⟩ := bind_eq_ok.mp hrest
    obtain rfl := ok.inj hcons
    obtain ⟨hname, hnames'⟩ := forall_mem_cons.mp hnames
    rw [parseCapability_eq hname hread, ih hnames' hreads]
    rfl

/-- What a HELLO that could be read says. -/
theorem parseHello_eq {peer : Options} {hello : HelloMessage} (hnames : ReadsNames env peer.capabilities)
    (h : parseHello env (helloPayload peer) = .ok hello) :
    hello.capabilities = announced peer.capabilities ∧ hello.clientId = env.bytesToUtf8 peer.clientId ∧
      hello.id = some (.bytes peer.nodeId) := by
  obtain ⟨version, hversion, h⟩ := bind_eq_ok.mp h
  obtain ⟨clientId, hclient, h⟩ := bind_eq_ok.mp h
  obtain ⟨capabilities, hcapabilities, h⟩ := bind_eq_ok.mp h
  obtain ⟨port, hport, h⟩ := bind_eq_ok.mp h
  obtain rfl := ok.inj h
  exact ⟨parseCapabilities_eq hnames hcapabilities, (ok.inj hclient).symm, rfl⟩

theorem Processed.protocols {peer : Options} {c c' : Connection} (h : Processed env peer c c')
    (hnames : ReadsNames env peer.capabilities) :
    c'.protocols = negotiate c.options.capabilities (announced peer.capabilities) := by
  cases hparse : parseHello env (helloPayload peer) with
  | error e =>
    have hthrows : handleHello env (helloPayload peer) c = (.error e, c) := by
      unfold handleHello
      rw [hparse]
      rfl
    cases hthrows.symm.trans h.run
  | ok hello =>
    obtain ⟨hcapabilities, hclient, hid⟩ := parseHello_eq hnames hparse
    rw [← hcapabilities]
    have hpasses (c₁ : Connection) (hsame : c₁.options = c.options) : filtered env c₁ hello = false := by
      unfold filtered
      rw [hsame, hclient]
      exact any_eq_false.mpr fun filter hfilter => by
        rw [h.client filter hfilter]
        exact Bool.false_ne_true
    have hruns : (handleHello env (helloPayload peer)).wp
        (fun _ c' => Holds c.options.capabilities hello.capabilities c') (fun _ _ => True) c := by
      simp only [handleHello, hparse, wp_bind, wp_ofExcept_ok, wp_modify, wp_get]
      cases hremote : c.remoteId with
      | none =>
        simp only [wp_bind, wp_modify]
        exact wp_mono (acceptHello_holds (hpasses _ rfl)) (fun _ _ h => h) fun _ _ _ => trivial
      | some remoteId =>
        have hequal := h.identity remoteId hremote
        rw [← hid] at hequal
        simp only [wp_bind, hequal, wp_ofExcept_ok, if_true]
        exact wp_mono (acceptHello_holds (hpasses _ rfl)) (fun _ _ h => h) fun _ _ _ => trivial
    exact @wp_ok _ _ _ (fun _ c' => Holds c.options.capabilities hello.capabilities c') _ _ _ _ _ h.run hruns

/-! ## The two ends -/

/-- Both ends have the capability in this version. -/
def Both (ours theirs : List Capability) (name : String) (version : Nat) : Prop :=
  (name, version) ∈ announced ours ∧ (name, version) ∈ announced theirs

/-- What two ends that have these capabilities should come to. -/
structure Agreed (ours theirs : List Capability) (a b : Connection) : Prop where
  same : b.protocols = a.protocols
  supported : ∀ name, (∃ version, Both ours theirs name version) →
    ∃ obj ∈ a.protocols, obj.protocol.name = name
  latest : ∀ obj ∈ a.protocols, Both ours theirs obj.protocol.name obj.protocol.version ∧
    ∀ version, Both ours theirs obj.protocol.name version → version ≤ obj.protocol.version
  /-- In the order of the names, of which no two are the same. -/
  sorted : a.protocols.Pairwise fun obj obj' => nameLt obj.protocol.name obj'.protocol.name = true
  start : ∀ obj ∈ a.protocols.head?, obj.offset = BASE_PROTOCOL_LENGTH
  lengths : ∀ obj ∈ a.protocols, obj.length = obj.protocol.length
  disjoint : a.protocols.Pairwise fun obj obj' => obj.offset + obj.length ≤ obj'.offset
  dispatch : ∀ code, getProtocol b code = getProtocol a code

section
variable {a a' b b' : Connection}

/-- Two ends that have processed each other's HELLO agree on their protocols, and these are what
they should be unless both have a capability of the name `__proto__`. -/
theorem agreed_iff (hcounts : EqualCounts a.options.capabilities b.options.capabilities)
    (hours : ReadsNames env a.options.capabilities) (htheirs : ReadsNames env b.options.capabilities)
    (ha : Processed env b.options a a') (hb : Processed env a.options b b') :
    Agreed a.options.capabilities b.options.capabilities a' b' ↔
      ¬∃ version, Both a.options.capabilities b.options.capabilities "__proto__" version := by
  have hprotocols := ha.protocols htheirs
  have hprotocols' := hb.protocols hours
  generalize a.options.capabilities = ours at *
  generalize b.options.capabilities = theirs at *
  have hselected : negotiate ours (announced theirs) =
      assignOffsets BASE_PROTOCOL_LENGTH (selected ours (announced theirs)) := rfl
  have hsame : b'.protocols = a'.protocols := by
    rw [hprotocols, hprotocols']
    exact congrArg (assignOffsets BASE_PROTOCOL_LENGTH) (selected_agree hcounts).symm
  rw [hselected] at hprotocols
  have hcaps := map_assignOffsets BASE_PROTOCOL_LENGTH (selected ours (announced theirs))
  rw [← hprotocols] at hcaps
  have hmem {obj : ProtocolDescriptor} (h : obj ∈ a'.protocols) :
      obj.protocol ∈ selected ours (announced theirs) := hcaps ▸ mem_map_of_mem h
  constructor
  · rintro hagreed hproto
    obtain ⟨obj, hobj, hname⟩ := hagreed.supported "__proto__" hproto
    exact (selected_common (hmem hobj)).2.2 hname
  · intro hproto
    have hlatest {name : String} {version : Nat} (hboth : Both ours theirs name version) :
        ∃ obj ∈ a'.protocols, obj.protocol.name = name ∧ version ≤ obj.protocol.version := by
      obtain ⟨c, hc, rfl, rfl⟩ := mem_announced.mp hboth.1
      have hne : c.name ≠ "__proto__" := fun heq => hproto ⟨c.version, heq ▸ hboth⟩
      obtain ⟨c', hc', hname, hle⟩ := selected_latest hc hboth.2 hne
      obtain ⟨obj, hobj, rfl⟩ := mem_map.mp (hcaps.symm ▸ hc')
      exact ⟨obj, hobj, hname, hle⟩
    refine ⟨hsame, ?_, ?_, ?_, ?_, ?_, ?_, ?_⟩
    · rintro name ⟨version, hboth⟩
      obtain ⟨obj, hobj, hname, -⟩ := hlatest hboth
      exact ⟨obj, hobj, hname⟩
    · intro obj hobj
      obtain ⟨hc, hannounced, -⟩ := selected_common (hmem hobj)
      refine ⟨⟨mem_announced.mpr ⟨_, hc, rfl, rfl⟩, hannounced⟩, fun version hboth => ?_⟩
      obtain ⟨obj', hobj', hname, hle⟩ := hlatest hboth
      have hunique := selected_unique (hmem hobj) (hmem hobj') hname
      rwa [hunique] at hle
    · exact pairwise_map.mp (hcaps.symm ▸ sorted_selected)
    · rw [hprotocols]
      cases selected ours (announced theirs) with
      | nil => exact fun _ h => (nomatch h)
      | cons c caps => exact fun obj h => Option.some.inj h ▸ rfl
    · exact fun obj hobj => length_of_mem_assignOffsets (hprotocols ▸ hobj)
    · exact hprotocols ▸ disjoint_assignOffsets _ _
    · intro code
      unfold getProtocol
      rw [hsame]

end

/-! ## Two sample ends -/

/-- An end that waits for the first message of its peer. -/
def waiting (direction : Direction) (capabilities : List Capability) : Connection :=
  let c := Sample.connected direction
  { c with
    options := { c.options with capabilities := capabilities }
    hello := none
    connected := false
    protocols := [] }

/-- It takes any HELLO that can be read. -/
theorem processed_waiting {direction direction' : Direction} {ours theirs : List Capability}
    (hruns : (handleHello Sample.env (helloPayload (waiting direction' theirs).options)
      (waiting direction ours)).1 = .ok ()) :
    Processed Sample.env (waiting direction' theirs).options (waiting direction ours)
      (handleHello Sample.env (helloPayload (waiting direction' theirs).options) (waiting direction ours)).2 :=
  ⟨Prod.ext hruns rfl, fun _ h => (nomatch h), fun _ h => (nomatch h)⟩

def sampleOurs : List Capability := [⟨"eth", 67, 17⟩, ⟨"snap", 1, 8⟩, ⟨"eth", 68, 17⟩, ⟨"eth", 67, 17⟩]

def sampleTheirs : List Capability := [⟨"les", 4, 21⟩, ⟨"eth", 68, 17⟩, ⟨"eth", 67, 17⟩]

/-- Two lists in different orders. -/
theorem agreed_sample :
    Agreed sampleOurs sampleTheirs
      (handleHello Sample.env (helloPayload (waiting .inbound sampleTheirs).options)
        (waiting .outbound sampleOurs)).2
      (handleHello Sample.env (helloPayload (waiting .outbound sampleOurs).options)
        (waiting .inbound sampleTheirs)).2 :=
  (agreed_iff (a := waiting .outbound sampleOurs) (b := waiting .inbound sampleTheirs)
    (by unfold EqualCounts; decide +kernel) (by unfold ReadsNames; decide +kernel)
    (by unfold ReadsNames; decide +kernel) (processed_waiting (by decide +kernel)) (processed_waiting (by decide +kernel))).mpr
    (by
      rintro ⟨version, hours, -⟩
      obtain ⟨c, hc, hname, -⟩ := mem_announced.mp hours
      revert c
      decide +kernel)

def sampleProto : List Capability := [⟨"__proto__", 1, 4⟩, ⟨"eth", 68, 17⟩]

/-- Both ends have two capabilities, and both leave out the first. -/
theorem proto_left_out : Both sampleProto sampleProto "__proto__" 1 ∧
    ∃ a' b', Processed Sample.env (waiting .inbound sampleProto).options (waiting .outbound sampleProto) a' ∧
      Processed Sample.env (waiting .outbound sampleProto).options (waiting .inbound sampleProto) b' ∧
      a'.protocols = [⟨⟨"eth", 68, 17⟩, 16, 17⟩] ∧ ¬Agreed sampleProto sampleProto a' b' := by
  have hprotocols : (handleHello Sample.env (helloPayload (waiting .inbound sampleProto).options)
      (waiting .outbound sampleProto)).2.protocols = [⟨⟨"eth", 68, 17⟩, 16, 17⟩] := by
    decide +kernel
  have hboth : Both sampleProto sampleProto "__proto__" 1 := ⟨by decide +kernel, by decide +kernel⟩
  refine ⟨hboth, _, _, processed_waiting (by decide +kernel), processed_waiting (by decide +kernel), hprotocols,
    fun hagreed => ?_⟩
  obtain ⟨obj, hobj, hname⟩ := hagreed.supported "__proto__" ⟨1, hboth⟩
  rw [hprotocols] at hobj
  obtain rfl := mem_singleton.mp hobj
  exact absurd hname (by decide +kernel)

end Connection
end Rlpx
