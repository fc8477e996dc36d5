-- SUMMARY: Which database keys coincide, and that reads return the last values after orderly runs under distinct keys.
import TsEthereum.Blockchain.DBReads

/-!
# Keys of the database

The key of a block's record is a prefix, the bytes of its number and its hash. The bytes are as
few as the number has, so the parts of a key cannot always be told apart.
-/

open List

namespace DBManager

open DatabaseKey

/-! ## Keys that coincide -/

/-- The key with the number that its bytes spell. -/
def DatabaseKey.wrap : DatabaseKey → DatabaseKey
  | numberToHash n => numberToHash (n % 2 ^ 64)
  | totalDifficulty n blockHash => totalDifficulty (n % 2 ^ 64) blockHash
  | body n blockHash => body (n % 2 ^ 64) blockHash
  | header n blockHash => header (n % 2 ^ 64) blockHash
  | key => key

/-- The targets that have no key of their own. -/
def DatabaseKey.keyless : DatabaseKey → Bool
  | cliqueSignerStates => true
  | cliqueVotes => true
  | cliqueBlockSigners => true
  | _ => false

/-- The bytes of a number are as few as it has, so the first byte of a hash can be read as the last
byte of the number, and the suffix of a total difficulty as the last byte of a hash. -/
def TdIsHeader (key key' : DatabaseKey) : Prop :=
  ∃ n h n' h' x rest, key = .totalDifficulty n h ∧ key' = .header n' h' ∧ h.val = x :: rest ∧
    h'.val = rest ++ [TD_SUFFIX] ∧ n % 2 ^ 64 ≠ 0 ∧ n' % 2 ^ 64 = 256 * (n % 2 ^ 64) + x.toNat

theorem bytesBE8_value (n : Nat) : bytesToBigInt (bytesBE8 n) = (n % 2 ^ 64 : Nat) :=
  bytesToBigInt_bigIntToBytes _

theorem bytesBE8_inj {n n' : Nat} : bytesBE8 n = bytesBE8 n' ↔ n % 2 ^ 64 = n' % 2 ^ 64 := by
  constructor
  · intro h
    have hvalue := congrArg bytesToBigInt h
    rw [bytesBE8_value, bytesBE8_value] at hvalue
    exact_mod_cast hvalue
  · intro h
    unfold bytesBE8
    rw [h]

theorem length_bytesBE8_le (n : Nat) : (bytesBE8 n).length ≤ 8 := by
  apply length_bigIntToBytes_le (by decide)
  exact Nat.mod_lt n (by decide)

theorem bytesBE8_concat {n n' : Nat} {x : UInt8} : bytesBE8 n ++ [x] = bytesBE8 n' ↔
    n % 2 ^ 64 ≠ 0 ∧ n' % 2 ^ 64 = 256 * (n % 2 ^ 64) + x.toNat := by
  constructor
  · intro h
    have hvalue := congrArg bytesToBigInt h
    have hone : bytesToBigInt [x] = x.toNat := by simp [bytesToBigInt]
    rw [bytesToBigInt_append, bytesBE8_value, bytesBE8_value, hone, length_singleton, pow_one] at hvalue
    have hnat : n' % 2 ^ 64 = 256 * (n % 2 ^ 64) + x.toNat := by exact_mod_cast hvalue.symm
    refine ⟨fun hzero => ?_, hnat⟩
    -- a number of one byte has no byte in front
    have hshort : (bytesBE8 n').length ≤ 1 := by
      apply length_bigIntToBytes_le (le_refl 1)
      have hx := x.toNat_lt
      omega
    have hlen := congrArg List.length h
    have hpos : bytesBE8 n = [0] := by
      unfold bytesBE8
      rw [hzero]
      rfl
    rw [hpos, length_append] at hlen
    simp only [length_cons, length_nil] at hlen
    omega
  · rintro ⟨hne, hnat⟩
    have hbytes := bigIntToBytes_concat hne x
    rw [← hnat] at hbytes
    exact hbytes.symm

/-- The key of a total difficulty is that of a header. -/
theorem td_eq_header {n n' : Nat} {h h' : BlockHash} :
    (totalDifficulty n h).baseKey = (header n' h').baseKey ↔
      TdIsHeader (.totalDifficulty n h) (.header n' h') := by
  obtain ⟨hash, hlen⟩ := h
  obtain ⟨hash', hlen'⟩ := h'
  cases hash with
  | nil => cases hlen
  | cons x rest =>
    have hassoc : bytesBE8 n ++ (x :: rest ++ [TD_SUFFIX]) =
        (bytesBE8 n ++ [x]) ++ (rest ++ [TD_SUFFIX]) := by
      rw [append_assoc]
      rfl
    have hrest : (rest ++ [TD_SUFFIX]).length = hash'.length := by
      rw [hlen', length_append, length_singleton]
      exact hlen
    constructor
    · intro hkey
      have hbytes := (List.cons.inj hkey).2
      rw [hassoc] at hbytes
      obtain ⟨hnumber, hsuffix⟩ := append_inj' hbytes hrest
      obtain ⟨hne, hnat⟩ := bytesBE8_concat.mp hnumber
      exact ⟨n, _, n', _, x, rest, rfl, rfl, rfl, hsuffix.symm, hne, hnat⟩
    · rintro ⟨_, _, _, _, _, _, ⟨⟩, ⟨⟩, hcons, hsuffix, hne, hnat⟩
      obtain ⟨rfl, rfl⟩ := List.cons.inj hcons
      apply congrArg (List.cons HEADER_PREFIX)
      rw [hassoc, bytesBE8_concat.mpr ⟨hne, hnat⟩, hsuffix]

theorem bytesBE8_append_inj {n n' : Nat} {a b : Bytes} (hlen : a.length = b.length) :
    bytesBE8 n ++ a = bytesBE8 n' ++ b ↔ n % 2 ^ 64 = n' % 2 ^ 64 ∧ a = b := by
  constructor
  · intro h
    obtain ⟨hnumber, hrest⟩ := append_inj' h hlen
    exact ⟨bytesBE8_inj.mp hnumber, hrest⟩
  · rintro ⟨hnumber, rfl⟩
    rw [bytesBE8_inj.mpr hnumber]

/-- A key with a hash is longer than one without. -/
theorem short_ne_long {short rest : Bytes} (n : Nat) (hshort : short.length ≤ 9) (hrest : 32 ≤ rest.length) :
    short ≠ bytesBE8 n ++ rest := by
  intro h
  have hlen := congrArg List.length h
  rw [length_append] at hlen
  omega

theorem length_number_le (n : Nat) : (bytesBE8 n ++ [NUM_SUFFIX]).length ≤ 9 := by
  rw [length_append]
  exact Nat.add_le_add_right (length_bytesBE8_le n) 1

theorem heads_ne_number (n : Nat) : HEADS_KEY.tail ≠ bytesBE8 n ++ [NUM_SUFFIX] := by
  intro h
  have hlast := congrArg List.getLast? h
  rw [getLast?_append] at hlast
  simp [HEADS_KEY, NUM_SUFFIX] at hlast

theorem length_td (h : BlockHash) : (h.val ++ [TD_SUFFIX]).length = 33 := by
  rw [length_append, h.property, length_singleton]

/-- The keys that begin like a header's, by what follows. -/
inductive HeaderLike : DatabaseKey → Bytes → Prop where
  | heads : HeaderLike .heads HEADS_KEY.tail
  | number (n : Nat) : HeaderLike (.numberToHash n) (bytesBE8 n ++ [NUM_SUFFIX])
  | td (n : Nat) (h : BlockHash) : HeaderLike (.totalDifficulty n h) (bytesBE8 n ++ (h.val ++ [TD_SUFFIX]))
  | header (n : Nat) (h : BlockHash) : HeaderLike (.header n h) (bytesBE8 n ++ h.val)

theorem headerLike_of_baseKey {key : DatabaseKey} {rest : Bytes} (h : key.baseKey = HEADER_PREFIX :: rest) :
    HeaderLike key rest := by
  cases key with
  | heads => exact (List.cons.inj h).2 ▸ .heads
  | numberToHash n => exact (List.cons.inj h).2 ▸ .number n
  | totalDifficulty n blockHash => exact (List.cons.inj h).2 ▸ .td n blockHash
  | header n blockHash => exact (List.cons.inj h).2 ▸ .header n blockHash
  | headHeader => cases h
  | headBlock => cases h
  | hashToNumber blockHash => cases h
  | body n blockHash => cases h
  | cliqueSignerStates => cases h
  | cliqueVotes => cases h
  | cliqueBlockSigners => cases h

theorem HeaderLike.coincide {key key' : DatabaseKey} {rest : Bytes} (h : HeaderLike key rest)
    (h' : HeaderLike key' rest) :
    key.wrap = key'.wrap ∨ TdIsHeader key key' ∨ TdIsHeader key' key := by
  have hlong (h : BlockHash) : 32 ≤ h.val.length := le_of_eq h.property.symm
  have htd (h : BlockHash) : 32 ≤ (h.val ++ [TD_SUFFIX]).length := (length_td h).symm ▸ (by decide)
  have hheads : HEADS_KEY.tail.length ≤ 9 := by decide
  generalize hrest : rest = rest' at h'
  cases h with
  | heads =>
    cases h' with
    | heads => exact .inl rfl
    | number n => exact absurd hrest (heads_ne_number n)
    | td n h => exact absurd hrest (short_ne_long n hheads (htd h))
    | header n h => exact absurd hrest (short_ne_long n hheads (hlong h))
  | number m =>
    cases h' with
    | heads => exact absurd hrest.symm (heads_ne_number m)
    | number n => exact .inl (congrArg DatabaseKey.numberToHash ((bytesBE8_append_inj rfl).mp hrest).1)
    | td n h => exact absurd hrest (short_ne_long n (length_number_le m) (htd h))
    | header n h => exact absurd hrest (short_ne_long n (length_number_le m) (hlong h))
  | td m k =>
    cases h' with
    | heads => exact absurd hrest.symm (short_ne_long m hheads (htd k))
    | number n => exact absurd hrest.symm (short_ne_long m (length_number_le n) (htd k))
    | td n h =>
      obtain ⟨hnumber, hhash⟩ := (bytesBE8_append_inj ((length_td k).trans (length_td h).symm)).mp hrest
      exact .inl (congrArg₂ DatabaseKey.totalDifficulty hnumber (Subtype.ext (append_cancel_right hhash)))
    | header n h => exact .inr (.inl (td_eq_header.mp (congrArg (List.cons HEADER_PREFIX) hrest)))
  | header m k =>
    cases h' with
    | heads => exact absurd hrest.symm (short_ne_long m hheads (hlong k))
    | number n => exact absurd hrest.symm (short_ne_long m (length_number_le n) (hlong k))
    | td n h => exact .inr (.inr (td_eq_header.mp (congrArg (List.cons HEADER_PREFIX) hrest.symm)))
    | header n h =>
      obtain ⟨hnumber, hhash⟩ := (bytesBE8_append_inj (k.property.trans h.property.symm)).mp hrest
      exact .inl (congrArg₂ DatabaseKey.header hnumber (Subtype.ext hhash))

theorem baseKey_wrap (key : DatabaseKey) : key.wrap.baseKey = key.baseKey := by
  have hwrap (n : Nat) : bytesBE8 (n % 2 ^ 64) = bytesBE8 n := bytesBE8_inj.mpr (Nat.mod_mod n _)
  cases key <;> simp only [DatabaseKey.wrap, baseKey, hwrap]

/-- Two keys coincide if they differ by the wrapping of a number, if they are keyless, or if one is
a total difficulty and the other the header that it looks like. -/
theorem baseKey_eq_iff (key key' : DatabaseKey) : key.baseKey = key'.baseKey ↔
    key.wrap = key'.wrap ∨ (key.keyless = true ∧ key'.keyless = true) ∨ TdIsHeader key key' ∨
      TdIsHeader key' key := by
  constructor
  · intro h
    by_cases hlike : ∃ rest, key.baseKey = HEADER_PREFIX :: rest
    · obtain ⟨rest, hrest⟩ := hlike
      rcases (headerLike_of_baseKey hrest).coincide (headerLike_of_baseKey (h.symm.trans hrest)) with
        hwrap | hcross
      · exact .inl hwrap
      · exact .inr (.inr hcross)
    · have hlike' : ∀ rest, key'.baseKey ≠ HEADER_PREFIX :: rest := fun rest hrest =>
        hlike ⟨rest, h.trans hrest⟩
      -- all others are told apart by their first bytes and by what follows
      cases key <;> first | exact absurd ⟨_, rfl⟩ hlike | skip
      all_goals cases key' <;> first | exact absurd rfl (hlike' _) | skip
      all_goals first
        | exact .inl rfl
        | exact .inr (.inl ⟨rfl, rfl⟩)
        | cases h
        | skip
      case hashToNumber.hashToNumber k k' =>
        exact .inl (congrArg hashToNumber (Subtype.ext (List.cons.inj h).2))
      case body.body n k n' k' =>
        obtain ⟨hnumber, hhash⟩ :=
          (bytesBE8_append_inj (k.property.trans k'.property.symm)).mp (List.cons.inj h).2
        exact .inl (congrArg₂ DatabaseKey.body hnumber (Subtype.ext hhash))
  · rintro (hwrap | ⟨hless, hless'⟩ | ⟨n, h, n', h', x, rest, rfl, rfl, hcross⟩ |
      ⟨n, h, n', h', x, rest, rfl, rfl, hcross⟩)
    · rw [← baseKey_wrap key, hwrap, baseKey_wrap]
    · have hnone (k : DatabaseKey) (hk : k.keyless = true) : k.baseKey = [] := by
        cases k <;> first | rfl | cases hk
      rw [hnone key hless, hnone key' hless']
    · exact td_eq_header.mpr ⟨n, h, n', h', x, rest, rfl, rfl, hcross⟩
    · exact (td_eq_header.mpr ⟨n, h, n', h', x, rest, rfl, rfl, hcross⟩).symm

/-- An entry of a cache has one key, up to the wrapping of its number. -/
theorem cacheEntry_eq_iff {key key' : DatabaseKey} {name : CacheName} (h : key.cacheString = some name)
    (h' : key'.cacheString = some name) : key.baseKey = key'.baseKey ↔ key.wrap = key'.wrap := by
  rw [baseKey_eq_iff]
  constructor
  · rintro (hwrap | ⟨hless, -⟩ | ⟨_, _, _, _, _, _, rfl, rfl, -⟩ | ⟨_, _, _, _, _, _, rfl, rfl, -⟩)
    · exact hwrap
    · cases key <;> first | (cases hless <;> done) | cases h
    · cases h
      cases h'
    · cases h
      cases h'
  · exact .inl

/-! ## What reads return -/

/-- After every orderly run under distinct keys whose calls have settled, every further read
returns the last value of its key. Which keys coincide is said exactly. -/
theorem reads_current {db : Bytes → Option Bytes} {before after : List Event}
    (hd : Distinct (usedKeys (before ++ after))) (hK : orderlyRun before (new db) = true)
    (hsettled : (run before (new db)).settled) (hafter : ∀ e ∈ after, e.isBatch = false) :
    (∀ out ∈ returned after (run before (new db)),
      out.2 = lastValue (batched before) out.1 (db out.1.baseKey)) ∧
    (∀ key key' : DatabaseKey, key.baseKey = key'.baseKey ↔
      key.wrap = key'.wrap ∨ (key.keyless = true ∧ key'.keyless = true) ∨ TdIsHeader key key' ∨
        TdIsHeader key' key) ∧
    ∀ (key key' : DatabaseKey) (name : CacheName), key.cacheString = some name →
      key'.cacheString = some name → (key.baseKey = key'.baseKey ↔ key.wrap = key'.wrap) := by
  obtain ⟨hbefore, hrest⟩ := usedKeys_append before after
  have hcurrent := (Current.new (usedKeys (before ++ after)) db).run hd hbefore hK
  exact ⟨(Calm.of_current hcurrent hsettled).returned hd hrest hafter, baseKey_eq_iff,
    fun key key' name h h' => cacheEntry_eq_iff h h'⟩

section Sample

/-- The canonical hash of block 5 in the database of the sample. -/
def sampleDb : Bytes → Option Bytes := fun k =>
  if k = (DatabaseKey.numberToHash 5).baseKey then some [1] else none

/-- A read of the hash of block 5 and a batch that deletes it; the read ends last. -/
def crossing : List Event :=
  [.get 0 (.numberToHash 5), .read 0, .batch 1 [.del (.numberToHash 5)], .write 1, .finishBatch 1,
    .finishGet 0]

/-- The read ends before the batch is called. -/
def inOrder : List Event :=
  [.get 0 (.numberToHash 5), .read 0, .finishGet 0, .batch 1 [.del (.numberToHash 5)], .write 1,
    .finishBatch 1]

theorem reads_current_sample :
    returned [.get 2 (.numberToHash 5), .read 2, .finishGet 2] (run inOrder (new sampleDb)) =
        [(.numberToHash 5, none)] ∧
      ∀ out ∈ returned [.get 2 (.numberToHash 5), .read 2, .finishGet 2]
        (run inOrder (new sampleDb)),
        out.2 = lastValue (batched inOrder) out.1 (sampleDb out.1.baseKey) := by
  have hkeys : ∀ key ∈ usedKeys (inOrder ++ [.get 2 (.numberToHash 5), .read 2, .finishGet 2]),
      key = .numberToHash 5 := by
    rintro key (⟨call, hcall⟩ | ⟨op, hop, rfl⟩)
    · simp only [inOrder, cons_append, nil_append, mem_cons, Event.get.injEq, reduceCtorEq,
        not_mem_nil, or_false, false_or] at hcall
      rcases hcall with hcall | hcall
      · exact hcall.2
      · exact hcall.2
    · have hbatched : batched (inOrder ++ [.get 2 (.numberToHash 5), .read 2, .finishGet 2]) =
          [.del (.numberToHash 5)] := rfl
      rw [hbatched] at hop
      rw [mem_singleton.mp hop]
      rfl
  have hd : Distinct (usedKeys (inOrder ++ [.get 2 (.numberToHash 5), .read 2, .finishGet 2])) := by
    intro key hkey key' hkey' _
    rw [hkeys key hkey, hkeys key' hkey']
  exact ⟨by decide +kernel, (reads_current hd (by decide +kernel) ⟨rfl, rfl⟩ (by decide)).1⟩

def zeroHash : BlockHash := ⟨List.replicate 32 0, by decide⟩

def shiftedHash : BlockHash := ⟨List.replicate 31 0 ++ [TD_SUFFIX], by decide⟩

/-- The deleted hash is back in the cache for good; and a total difficulty stands under the key of a
header. -/
theorem stale_read : ((run crossing (new sampleDb)).settled ∧
      returned [.get 2 (.numberToHash 5)] (run crossing (new sampleDb)) = [(.numberToHash 5, some [1])] ∧
      lastValue (batched crossing) (.numberToHash 5) (sampleDb (DatabaseKey.numberToHash 5).baseKey) =
        none) ∧
    (DatabaseKey.totalDifficulty 1 zeroHash).baseKey = (DatabaseKey.header 256 shiftedHash).baseKey := by
  refine ⟨⟨⟨rfl, rfl⟩, by decide +kernel, by decide +kernel⟩, by decide +kernel⟩

end Sample

end DBManager
