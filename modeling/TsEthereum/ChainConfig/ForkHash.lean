-- SUMMARY: Fork hashes, the checksum they are computed with, and the next hardfork of a list.
import TsEthereum.Base.CyclicCodes
import TsEthereum.Base.Grouped
import TsEthereum.ChainConfig.ActiveHardfork
import TsEthereum.Tx.Bytes

/-!
# Fork hashes

`crc.ts`, and what `GlobalConfig` makes of it: the hash of the genesis block and the forks
passed since. Block numbers and timestamps are compared as the configuration spells them.
-/

open List Option Nat Int

namespace HardforkSelection

open Rlp HardforkTransitionConfig

/-! ## The checksum -/

def TABLE : List Nat :=
  [0x00000000, 0x77073096, 0xee0e612c, 0x990951ba, 0x076dc419, 0x706af48f, 0xe963a535, 0x9e6495a3,
    0x0edb8832, 0x79dcb8a4, 0xe0d5e91e, 0x97d2d988, 0x09b64c2b, 0x7eb17cbd, 0xe7b82d07, 0x90bf1d91,
    0x1db71064, 0x6ab020f2, 0xf3b97148, 0x84be41de, 0x1adad47d, 0x6ddde4eb, 0xf4d4b551, 0x83d385c7,
    0x136c9856, 0x646ba8c0, 0xfd62f97a, 0x8a65c9ec, 0x14015c4f, 0x63066cd9, 0xfa0f3d63, 0x8d080df5,
    0x3b6e20c8, 0x4c69105e, 0xd56041e4, 0xa2677172, 0x3c03e4d1, 0x4b04d447, 0xd20d85fd, 0xa50ab56b,
    0x35b5a8fa, 0x42b2986c, 0xdbbbc9d6, 0xacbcf940, 0x32d86ce3, 0x45df5c75, 0xdcd60dcf, 0xabd13d59,
    0x26d930ac, 0x51de003a, 0xc8d75180, 0xbfd06116, 0x21b4f4b5, 0x56b3c423, 0xcfba9599, 0xb8bda50f,
    0x2802b89e, 0x5f058808, 0xc60cd9b2, 0xb10be924, 0x2f6f7c87, 0x58684c11, 0xc1611dab, 0xb6662d3d,
    0x76dc4190, 0x01db7106, 0x98d220bc, 0xefd5102a, 0x71b18589, 0x06b6b51f, 0x9fbfe4a5, 0xe8b8d433,
    0x7807c9a2, 0x0f00f934, 0x9609a88e, 0xe10e9818, 0x7f6a0dbb, 0x086d3d2d, 0x91646c97, 0xe6635c01,
    0x6b6b51f4, 0x1c6c6162, 0x856530d8, 0xf262004e, 0x6c0695ed, 0x1b01a57b, 0x8208f4c1, 0xf50fc457,
    0x65b0d9c6, 0x12b7e950, 0x8bbeb8ea, 0xfcb9887c, 0x62dd1ddf, 0x15da2d49, 0x8cd37cf3, 0xfbd44c65,
    0x4db26158, 0x3ab551ce, 0xa3bc0074, 0xd4bb30e2, 0x4adfa541, 0x3dd895d7, 0xa4d1c46d, 0xd3d6f4fb,
    0x4369e96a, 0x346ed9fc, 0xad678846, 0xda60b8d0, 0x44042d73, 0x33031de5, 0xaa0a4c5f, 0xdd0d7cc9,
    0x5005713c, 0x270241aa, 0xbe0b1010, 0xc90c2086, 0x5768b525, 0x206f85b3, 0xb966d409, 0xce61e49f,
    0x5edef90e, 0x29d9c998, 0xb0d09822, 0xc7d7a8b4, 0x59b33d17, 0x2eb40d81, 0xb7bd5c3b, 0xc0ba6cad,
    0xedb88320, 0x9abfb3b6, 0x03b6e20c, 0x74b1d29a, 0xead54739, 0x9dd277af, 0x04db2615, 0x73dc1683,
    0xe3630b12, 0x94643b84, 0x0d6d6a3e, 0x7a6a5aa8, 0xe40ecf0b, 0x9309ff9d, 0x0a00ae27, 0x7d079eb1,
    0xf00f9344, 0x8708a3d2, 0x1e01f268, 0x6906c2fe, 0xf762575d, 0x806567cb, 0x196c3671, 0x6e6b06e7,
    0xfed41b76, 0x89d32be0, 0x10da7a5a, 0x67dd4acc, 0xf9b9df6f, 0x8ebeeff9, 0x17b7be43, 0x60b08ed5,
    0xd6d6a3e8, 0xa1d1937e, 0x38d8c2c4, 0x4fdff252, 0xd1bb67f1, 0xa6bc5767, 0x3fb506dd, 0x48b2364b,
    0xd80d2bda, 0xaf0a1b4c, 0x36034af6, 0x41047a60, 0xdf60efc3, 0xa867df55, 0x316e8eef, 0x4669be79,
    0xcb61b38c, 0xbc66831a, 0x256fd2a0, 0x5268e236, 0xcc0c7795, 0xbb0b4703, 0x220216b9, 0x5505262f,
    0xc5ba3bbe, 0xb2bd0b28, 0x2bb45a92, 0x5cb36a04, 0xc2d7ffa7, 0xb5d0cf31, 0x2cd99e8b, 0x5bdeae1d,
    0x9b64c2b0, 0xec63f226, 0x756aa39c, 0x026d930a, 0x9c0906a9, 0xeb0e363f, 0x72076785, 0x05005713,
    0x95bf4a82, 0xe2b87a14, 0x7bb12bae, 0x0cb61b38, 0x92d28e9b, 0xe5d5be0d, 0x7cdcefb7, 0x0bdbdf21,
    0x86d3d2d4, 0xf1d4e242, 0x68ddb3f8, 0x1fda836e, 0x81be16cd, 0xf6b9265b, 0x6fb077e1, 0x18b74777,
    0x88085ae6, 0xff0f6a70, 0x66063bca, 0x11010b5c, 0x8f659eff, 0xf862ae69, 0x616bffd3, 0x166ccf45,
    0xa00ae278, 0xd70dd2ee, 0x4e048354, 0x3903b3c2, 0xa7672661, 0xd06016f7, 0x4969474d, 0x3e6e77db,
    0xaed16a4a, 0xd9d65adc, 0x40df0b66, 0x37d83bf0, 0xa9bcae53, 0xdebb9ec5, 0x47b2cf7f, 0x30b5ffe9,
    0xbdbdf21c, 0xcabac28a, 0x53b39330, 0x24b4a3a6, 0xbad03605, 0xcdd70693, 0x54de5729, 0x23d967bf,
    0xb3667a2e, 0xc4614ab8, 0x5d681b02, 0x2a6f2b94, 0xb40bbe37, 0xc30c8ea1, 0x5a05df1b, 0x2d02ef8d]

def crc (current : Bytes) (previous : Option Int) : BitVec 32 :=
  let start := if previous = some 0 then 0#32 else BitVec.ofInt 32 (previous.getD 0) ^^^ BitVec.allOnes 32
  current.foldl (fun crc byte =>
    BitVec.ofNat 32 (TABLE.getD ((crc ^^^ BitVec.ofNat 32 byte.toNat) &&& 0xff#32).toNat 0) ^^^ (crc >>> 8))
    start ^^^ BitVec.allOnes 32

def crc32 (current : Bytes) (previous : Option Int) : Nat := (crc current previous).toNat

/-- The polynomial of CRC-32, its highest power at bit 0. -/
def polynomial : BitVec 32 := 0xEDB88320#32

theorem table_entry : ∀ i < 256, BitVec.ofNat 32 (TABLE.getD i 0) =
    CyclicCode.shifts polynomial 8 (BitVec.ofNat 32 i) := by
  decide +kernel

theorem masks_byte : CyclicCode.Masks 0xff#32 8 := by
  unfold CyclicCode.Masks
  decide

theorem table_shifts (c : BitVec 32) : BitVec.ofNat 32 (TABLE.getD (c &&& 0xff#32).toNat 0) =
    CyclicCode.shifts polynomial 8 (c &&& 0xff#32) := by
  have hlt : (c &&& 0xff#32).toNat < 256 := by
    rw [BitVec.toNat_and]
    exact lt_succ_of_le and_le_right
  rw [table_entry _ hlt, BitVec.ofNat_toNat, BitVec.setWidth_eq]

/-- The table gives the code of the polynomial. -/
theorem crc32_eq (bytes : Bytes) : crc32 bytes none = (CyclicCode.code polynomial bytes).toNat := by
  have hstep : (fun (crc : BitVec 32) (byte : UInt8) =>
      BitVec.ofNat 32 (TABLE.getD ((crc ^^^ BitVec.ofNat 32 byte.toNat) &&& 0xff#32).toNat 0) ^^^ (crc >>> 8)) =
      CyclicCode.step polynomial := by
    funext c byte
    exact (@CyclicCode.step_eq_table 32 polynomial 0xff#32 masks_byte
      (fun c => BitVec.ofNat 32 (TABLE.getD c.toNat 0)) table_shifts c byte).symm
  unfold crc32 crc CyclicCode.code
  rw [hstep]
  rfl

/-! ## The hash -/

/-- `timestamp ?? block`, a block number being a number. -/
def HardforkTransitionConfig.blockOrTimestamp (hf : HardforkTransitionConfig) : Option Timestamp :=
  match hf.timestamp with
  | some timestamp => some timestamp
  | none => hf.block.map fun block => ⟨none, block⟩

/-- `Number`, which keeps 53 bits. -/
def toNumber (n : Int) : Int := n.sign * Rlp.toNumber n.natAbs

/-- The bytes of the hex digits, padded to 16 of them. -/
def paddedBytes (n : Int) : Except String Bytes :=
  if n < 0 then .error "hex string expected, got non-hex character"
  else .ok (List.replicate (8 - (Rlp.numberToBytes n.toNat).length) 0 ++ Rlp.numberToBytes n.toNat)

/-- A turn of the loop of `_calcForkHash`: the start of the chain, hardforks that are not
scheduled, a second one at the same activation and the merge add nothing. -/
def forkStep (hf : HardforkTransitionConfig) (hfBytes : Bytes) (prevBlockOrTime : Int) :
    Except String (Bytes × Int) :=
  match hf.blockOrTimestamp.map fun t => toNumber t.value with
  | some blockOrTime =>
    if blockOrTime ≠ 0 ∧ blockOrTime ≠ prevBlockOrTime ∧ hf.name ≠ .known .Paris then do
      let hfBlockBytes ← paddedBytes blockOrTime
      return (hfBytes ++ hfBlockBytes, blockOrTime)
    else .ok (hfBytes, prevBlockOrTime)
  | none => .ok (hfBytes, prevBlockOrTime)

def forkBytes (hardfork : HardforkName) :
    List HardforkTransitionConfig → Bytes → Int → Except String Bytes
  | [], hfBytes, _ => .ok hfBytes
  | hf :: hfs, hfBytes, prevBlockOrTime => do
    let (hfBytes, prevBlockOrTime) ← forkStep hf hfBytes prevBlockOrTime
    if hf.name = hardfork then return hfBytes
    forkBytes hardfork hfs hfBytes prevBlockOrTime

def calcForkHash (hardforks : List HardforkTransitionConfig) (hardfork : HardforkName)
    (genesisHash : Bytes) : Except String HexString := do
  let hfBytes ← forkBytes hardfork hardforks [] 0
  let forkhash ← Tx.intToBytes (crc32 (genesisHash ++ hfBytes) none)
  return bytesToHex forkhash

/-- A hardfork with the hash that the configuration has for it. -/
structure ForkConfig extends HardforkTransitionConfig where
  forkHash : Option HexString

def forkHash (hardforks : List ForkConfig) (currentHardfork : HardforkName)
    (hardfork : Option HardforkName) (genesisHash : Option Bytes) : Except String HexString :=
  let hardfork := hardfork.getD currentHardfork
  let data := hardforks.reverse.find? fun hf => hf.name = hardfork
  if data.any fun data => !data.scheduled then
    .error "No fork hash calculation possible for future hardfork"
  else match data.bind ForkConfig.forkHash, genesisHash with
    | some forkHash, _ => .ok forkHash
    | none, none => .error "genesisHash required for forkHash calculation"
    | none, some genesisHash =>
      calcForkHash (hardforks.map ForkConfig.toHardforkTransitionConfig) hardfork genesisHash

def nextHardforkBlockOrTimestamp (hardforks : List HardforkTransitionConfig)
    (targetHardfork : HardforkName) : Option Int :=
  let found : Int := match hardforks.findIdx? fun hf => hf.name = targetHardfork with
    | some i => i
    | none => -1
  let targetHfIndex := if targetHardfork = .known .Paris then found - 1 else found
  if targetHfIndex < 0 then none
  else match hardforks.drop targetHfIndex.toNat with
    | [] => none
    | currentHf :: later =>
      match currentHf.blockOrTimestamp with
      | none => none
      | some currentBlockOrTimestamp =>
        (later.find? fun hf => hf.blockOrTimestamp.any (· ≠ currentBlockOrTimestamp)).bind fun nextHf =>
          nextHf.blockOrTimestamp.map Timestamp.value

/-! ## The fork identifier -/

/-- The block or time that a hardfork activates at. -/
def HardforkTransitionConfig.activation (hf : HardforkTransitionConfig) : Option Int :=
  hf.blockOrTimestamp.map Timestamp.value

/-- The activations that change the hash. -/
def forkPoints (hardforks : List HardforkTransitionConfig) : List Int :=
  (hardforks.filterMap fun hf => if hf.name = .known .Paris then none else hf.activation).filter (· ≠ 0)

/-- The low `k` bytes of a number, the highest in front. -/
def bigEndian : Nat → Nat → Bytes
  | 0, _ => []
  | k + 1, n => bigEndian k (n / 256) ++ [UInt8.ofNat (n % 256)]

/-- The checksum of the genesis hash and the distinct forks passed. -/
def forkChecksum (genesisHash : Bytes) (passed : List HardforkTransitionConfig) : Nat :=
  (CyclicCode.code polynomial
    (genesisHash ++ (forkPoints passed).dedup.flatMap fun n => bigEndian 8 n.toNat)).toNat

/-- The activations are numbers that `Number` keeps, and equal ones stand together, as they do
in the order of activation. -/
structure ForkList (hardforks : List HardforkTransitionConfig) : Prop where
  safe : ∀ n ∈ hardforks.filterMap HardforkTransitionConfig.activation, 0 ≤ n ∧ n < 2 ^ 53
  grouped : (hardforks.filterMap HardforkTransitionConfig.activation).Grouped

theorem length_bigEndian (k n : Nat) : (bigEndian k n).length = k := by
  induction k generalizing n with
  | zero => rfl
  | succ k ih =>
    unfold bigEndian
    rw [length_append, ih]
    rfl

theorem bigEndian_zero (k : Nat) : bigEndian k 0 = List.replicate k 0 := by
  induction k with
  | zero => rfl
  | succ k ih =>
    unfold bigEndian
    rw [Nat.zero_div, ih]
    exact List.replicate_succ'.symm

variable {n : Nat}

theorem bigEndian_numberBytes {k fuel : Nat} (h : n < 256 ^ (k + 1)) (hfuel : n < fuel)
    (acc : Bytes) : bigEndian (k + 1) n ++ acc = List.replicate
      (k + 1 + acc.length - (numberBytes fuel n acc).length) 0 ++ numberBytes fuel n acc := by
  induction k generalizing n fuel acc with
  | zero =>
    obtain ⟨fuel, rfl⟩ := exists_eq_succ_of_ne_zero (Nat.ne_of_gt (zero_lt_of_lt hfuel))
    have hsmall : n < 256 := by simpa using h
    unfold numberBytes
    rw [if_pos hsmall]
    simp [bigEndian, mod_eq_of_lt hsmall, Nat.add_comm]
  | succ k ih =>
    obtain ⟨fuel, rfl⟩ := exists_eq_succ_of_ne_zero (Nat.ne_of_gt (zero_lt_of_lt hfuel))
    unfold bigEndian numberBytes
    rw [append_assoc, singleton_append]
    split
    · next hsmall =>
      have hzeros : k + 1 + 1 + acc.length - (UInt8.ofNat n :: acc).length = k + 1 := by
        rw [length_cons]
        omega
      rw [div_eq_of_lt hsmall, mod_eq_of_lt hsmall, bigEndian_zero, hzeros]
    · have hdiv : n / 256 < 256 ^ (k + 1) := Nat.div_lt_of_lt_mul (by rwa [Nat.pow_succ, Nat.mul_comm] at h)
      have hless : n / 256 < fuel := by omega
      have hlen : k + 1 + (UInt8.ofNat (n % 256) :: acc).length = k + 1 + 1 + acc.length := by
        rw [length_cons, Nat.add_comm acc.length, Nat.add_assoc (k + 1)]
      rw [ih hdiv hless, hlen]

/-- Leading zero bytes and the bytes of a number make its low bytes. -/
theorem bigEndian_eq {k : Nat} (h : n < 256 ^ (k + 1)) : bigEndian (k + 1) n =
    List.replicate (k + 1 - (numberToBytes n).length) 0 ++ numberToBytes n := by
  have hbytes := bigEndian_numberBytes h (lt_succ_self n) []
  rwa [append_nil] at hbytes

theorem toNumber_of_safe {n : Int} (h : 0 ≤ n ∧ n < 2 ^ 53) : toNumber n = n := by
  unfold toNumber
  rw [toNumber_of_lt (by omega), sign_mul_natAbs]

theorem paddedBytes_of_safe {n : Int} (h : 0 ≤ n ∧ n < 2 ^ 53) :
    paddedBytes n = .ok (bigEndian 8 n.toNat) := by
  unfold paddedBytes
  rw [if_neg (Int.not_lt.mpr h.1), bigEndian_eq (by omega)]

theorem forkPoints_append (hfs hfs' : List HardforkTransitionConfig) :
    forkPoints (hfs ++ hfs') = forkPoints hfs ++ forkPoints hfs' := by
  unfold forkPoints
  rw [filterMap_append, filter_append]

/-- What a turn of the loop does with a hardfork at a number that `Number` keeps. -/
theorem forkStep_eq {hf : HardforkTransitionConfig} (hsafe : ∀ n ∈ hf.activation, 0 ≤ n ∧ n < 2 ^ 53)
    (hfBytes : Bytes) (prevBlockOrTime : Int) :
    (forkPoints [hf] = [] ∧ forkStep hf hfBytes prevBlockOrTime = .ok (hfBytes, prevBlockOrTime)) ∨
    ∃ n, forkPoints [hf] = [n] ∧ forkStep hf hfBytes prevBlockOrTime =
      if n = prevBlockOrTime then .ok (hfBytes, prevBlockOrTime)
      else .ok (hfBytes ++ bigEndian 8 n.toNat, n) := by
  cases hstart : hf.blockOrTimestamp with
  | none =>
    left
    unfold forkPoints forkStep activation
    simp [hstart]
  | some t =>
    have hactivation : hf.activation = some t.value := congrArg (Option.map Timestamp.value) hstart
    have ht := hsafe t.value hactivation
    have hstep : forkStep hf hfBytes prevBlockOrTime =
        if t.value ≠ 0 ∧ t.value ≠ prevBlockOrTime ∧ hf.name ≠ .known .Paris then
          .ok (hfBytes ++ bigEndian 8 t.value.toNat, t.value)
        else .ok (hfBytes, prevBlockOrTime) := by
      unfold forkStep
      rw [hstart, map_some, toNumber_of_safe ht]
      dsimp only
      rw [paddedBytes_of_safe ht]
      rfl
    rw [hstep]
    unfold forkPoints
    by_cases hparis : hf.name = .known .Paris
    · left
      simp [hparis]
    · by_cases hzero : t.value = 0
      · left
        simp [hparis, hactivation, hzero]
      · right
        refine ⟨t.value, by simp [hparis, hactivation, hzero], ?_⟩
        by_cases hprev : t.value = prevBlockOrTime
        · rw [if_pos hprev, if_neg fun h => h.2.1 hprev]
        · rw [if_neg hprev, if_pos ⟨hzero, hprev, hparis⟩]

theorem forkBytes_of_step {hf : HardforkTransitionConfig} {hfs : List HardforkTransitionConfig}
    {hardfork : HardforkName} {hfBytes hfBytes' : Bytes} {prev prev' : Int}
    (h : forkStep hf hfBytes prev = .ok (hfBytes', prev')) : forkBytes hardfork (hf :: hfs) hfBytes prev =
      if hf.name = hardfork then .ok hfBytes' else forkBytes hardfork hfs hfBytes' prev' := by
  conv => lhs; unfold forkBytes
  rw [h]
  rfl

/-- The loop appends the activations up to the hardfork that are not those in front of them. -/
theorem forkBytes_eq {hf : HardforkTransitionConfig} {before after : List HardforkTransitionConfig}
    (hsafe : ∀ a ∈ before ++ [hf], ∀ n ∈ a.activation, 0 ≤ n ∧ n < 2 ^ 53)
    (hfirst : ∀ a ∈ before, a.name ≠ hf.name) (hfBytes : Bytes) (prev : Int) :
    ∃ changes, (forkPoints (before ++ [hf])).destutter' (· ≠ ·) prev = prev :: changes ∧
      forkBytes hf.name (before ++ hf :: after) hfBytes prev =
        .ok (hfBytes ++ changes.flatMap fun n => bigEndian 8 n.toNat) := by
  induction before generalizing hfBytes prev with
  | nil =>
    rw [nil_append, nil_append]
    rcases forkStep_eq (hsafe hf (mem_singleton_self hf)) hfBytes prev with
      ⟨hpoints, hstep⟩ | ⟨n, hpoints, hstep⟩
    · refine ⟨[], by rw [hpoints]; rfl, ?_⟩
      rw [forkBytes_of_step hstep, if_pos rfl, flatMap_nil, append_nil]
    · by_cases hn : n = prev
      · rw [if_pos hn] at hstep
        refine ⟨[], by rw [hpoints, destutter'_cons_neg _ (not_not.mpr hn.symm)]; rfl, ?_⟩
        rw [forkBytes_of_step hstep, if_pos rfl, flatMap_nil, append_nil]
      · rw [if_neg hn] at hstep
        refine ⟨[n], by rw [hpoints, destutter'_cons_pos _ (Ne.symm hn)]; rfl, ?_⟩
        rw [forkBytes_of_step hstep, if_pos rfl, flatMap_singleton]
  | cons a before ih =>
    have hname := hfirst a mem_cons_self
    have ih := ih (fun b hb => hsafe b (mem_cons_of_mem a hb)) fun b hb => hfirst b (mem_cons_of_mem a hb)
    rw [cons_append, cons_append, ← singleton_append, forkPoints_append]
    rcases forkStep_eq (hsafe a mem_cons_self) hfBytes prev with
      ⟨hpoints, hstep⟩ | ⟨n, hpoints, hstep⟩
    · obtain ⟨changes, hchanges, hrun⟩ := ih hfBytes prev
      refine ⟨changes, by rwa [hpoints], ?_⟩
      rw [forkBytes_of_step hstep, if_neg hname, hrun]
    · rw [hpoints, singleton_append]
      by_cases hn : n = prev
      · rw [if_pos hn] at hstep
        obtain ⟨changes, hchanges, hrun⟩ := ih hfBytes prev
        refine ⟨changes, by rwa [destutter'_cons_neg _ (not_not.mpr hn.symm)], ?_⟩
        rw [forkBytes_of_step hstep, if_neg hname, hrun]
      · rw [if_neg hn] at hstep
        obtain ⟨changes, hchanges, hrun⟩ := ih (hfBytes ++ bigEndian 8 n.toNat) n
        refine ⟨n :: changes, by rw [destutter'_cons_pos _ (Ne.symm hn), hchanges], ?_⟩
        rw [forkBytes_of_step hstep, if_neg hname, hrun, flatMap_cons, append_assoc]

section
variable {hardforks before after : List HardforkTransitionConfig} {hf : HardforkTransitionConfig}

/-- The points of a part of the list are grouped too. -/
theorem ForkList.grouped_points (h : ForkList hardforks) (hsub : before.Sublist hardforks) :
    (forkPoints before).Grouped := by
  apply h.grouped.sublist
  apply (filter_sublist ..).trans
  apply List.Sublist.trans _ (hsub.filterMap _)
  induction before with
  | nil => exact nil_sublist _
  | cons a before ih =>
    have ih := ih ((sublist_cons_self a before).trans hsub)
    rw [filterMap_cons, filterMap_cons]
    by_cases hparis : a.name = .known .Paris
    · rw [if_pos hparis]
      cases a.activation with
      | none => exact ih
      | some n => exact ih.cons n
    · rw [if_neg hparis]
      cases a.activation with
      | none => exact ih
      | some n => exact ih.cons_cons n

theorem zero_notMem_forkPoints : 0 ∉ forkPoints hardforks := fun h => by
  have hne := (mem_filter.mp h).2
  simp at hne

theorem calcForkHash_eq (h : ForkList hardforks) (hplace : hardforks = before ++ hf :: after)
    (hfirst : ∀ a ∈ before, a.name ≠ hf.name) (genesisHash : Bytes) :
    calcForkHash hardforks hf.name genesisHash =
      .ok (bytesToHex (numberToBytes (forkChecksum genesisHash (before ++ [hf])))) := by
  have hsub : (before ++ [hf]).Sublist hardforks := by
    rw [hplace]
    exact ((nil_sublist after).cons_cons hf).append_left before
  have hsafe : ∀ a ∈ before ++ [hf], ∀ n ∈ a.activation, 0 ≤ n ∧ n < 2 ^ 53 := fun a ha n hn =>
    h.safe n (mem_filterMap.mpr ⟨a, hsub.subset ha, hn⟩)
  obtain ⟨changes, hchanges, hrun⟩ := @forkBytes_eq hf before after hsafe hfirst [] 0
  have hgrouped : (0 :: forkPoints (before ++ [hf])).Grouped :=
    ⟨fun hzero => absurd hzero zero_notMem_forkPoints, h.grouped_points hsub⟩
  have hdistinct : changes = (forkPoints (before ++ [hf])).dedup := by
    rw [hgrouped.destutter'_eq_dedup, dedup_cons_of_notMem zero_notMem_forkPoints] at hchanges
    exact (List.cons.inj hchanges).2.symm
  have hint : Tx.intToBytes (crc32 (genesisHash ++ changes.flatMap fun n => bigEndian 8 n.toNat) none) =
      .ok (numberToBytes (forkChecksum genesisHash (before ++ [hf]))) := by
    unfold forkChecksum
    rw [crc32_eq, ← hdistinct]
    refine if_neg ?_
    have hlt := (CyclicCode.code polynomial (genesisHash ++ changes.flatMap fun n => bigEndian 8 n.toNat)).isLt
    omega
  unfold calcForkHash
  rw [hplace, hrun]
  change (Tx.intToBytes (crc32 (genesisHash ++ changes.flatMap fun n => bigEndian 8 n.toNat) none)).bind
    (fun forkhash => .ok (bytesToHex forkhash)) = _
  rw [hint]
  rfl

end

/-! ## Four bytes -/

theorem bytesToHex_inj {a b : Bytes} : bytesToHex a = bytesToHex b ↔ a = b := by
  constructor
  · intro h
    have hbytes := hexToBytes_bytesToHex a
    rw [h, hexToBytes_bytesToHex] at hbytes
    exact (Except.ok.inj hbytes).symm
  · exact congrArg bytesToHex

theorem length_lt_numberBytes {fuel : Nat} (hfuel : n < fuel) (acc : Bytes) :
    acc.length < (numberBytes fuel n acc).length := by
  induction fuel generalizing n acc with
  | zero => exact absurd hfuel (Nat.not_lt_zero n)
  | succ fuel ih =>
    unfold numberBytes
    split
    · exact lt_succ_self _
    · exact Nat.lt_trans (lt_succ_self _) (@ih (n / 256) (by omega) (UInt8.ofNat (n % 256) :: acc))

theorem lt_of_length_numberBytes {k n fuel : Nat} (hfuel : n < fuel) (acc : Bytes)
    (h : (numberBytes fuel n acc).length ≤ k + acc.length) : n < 256 ^ k := by
  induction k generalizing n fuel acc with
  | zero =>
    rw [Nat.zero_add] at h
    exact absurd (length_lt_numberBytes hfuel acc) (Nat.not_lt.mpr h)
  | succ k ih =>
    obtain ⟨fuel, rfl⟩ := exists_eq_succ_of_ne_zero (Nat.ne_of_gt (zero_lt_of_lt hfuel))
    unfold numberBytes at h
    split at h
    · next hsmall => exact Nat.lt_of_lt_of_le hsmall (Nat.le_self_pow k.succ_ne_zero 256)
    · rw [Nat.pow_succ]
      have hdiv : n / 256 < 256 ^ k := by
        apply @ih (n / 256) fuel (by omega) (UInt8.ofNat (n % 256) :: acc)
        rw [length_cons]
        omega
      omega

/-- The bytes of a number of 32 bits are four of them where the highest is not zero. -/
theorem numberToBytes_eq_bigEndian (h : n < 2 ^ 32) :
    numberToBytes n = bigEndian 4 n ↔ 2 ^ 24 ≤ n := by
  constructor
  · intro hbytes
    by_contra hsmall
    have hlen := @Rlp.length_numberBytes 2 n (by omega) (n + 1) []
    have hfour := congrArg List.length hbytes
    rw [length_bigEndian] at hfour
    unfold numberToBytes at hfour
    rw [hfour] at hlen
    exact absurd hlen (by decide)
  · intro hlarge
    have hlen : ¬(numberToBytes n).length ≤ 3 := fun hshort =>
      absurd (@lt_of_length_numberBytes 3 n _ (lt_succ_self n) [] hshort) (by omega)
    have hnone : 4 - (numberToBytes n).length = 0 := by omega
    rw [bigEndian_eq (by omega), hnone]
    rfl

/-! ## The next activation -/

section
variable {hardforks before after : List HardforkTransitionConfig} {hf : HardforkTransitionConfig}

/-- Hardforks at the same activation spell it alike. -/
def SpelledAlike (hf : HardforkTransitionConfig) (after : List HardforkTransitionConfig) : Prop :=
  ∀ a ∈ after, a.activation = hf.activation → a.blockOrTimestamp = hf.blockOrTimestamp

/-- The next activation is searched for behind the hardfork itself: for the merge the search
starts at the hardfork in front of it, and finds the merge where that one differs. -/
def NextFound (before : List HardforkTransitionConfig) (hf : HardforkTransitionConfig)
    (after : List HardforkTransitionConfig) : Prop :=
  if hf.name = .known .Paris then
    match before.getLast?.bind HardforkTransitionConfig.blockOrTimestamp with
    | none => ∀ a ∈ after, ∀ n ∈ a.activation, hf.activation = some n
    | some previous => hf.blockOrTimestamp = some previous ∧ SpelledAlike hf after
  else SpelledAlike hf after

/-- The first hardfork that starts at something else than `t`. -/
def nextFrom (t : Timestamp) (later : List HardforkTransitionConfig) : Option Int :=
  (later.find? fun hf => hf.blockOrTimestamp.any (· ≠ t)).bind fun nextHf =>
    nextHf.blockOrTimestamp.map Timestamp.value

variable {t : Timestamp} {a : HardforkTransitionConfig}

theorem nextFrom_cons_none (h : a.blockOrTimestamp = none) :
    nextFrom t (a :: after) = nextFrom t after := by
  unfold nextFrom
  rw [find?_cons_of_neg]
  rw [h]
  exact Bool.false_ne_true

theorem nextFrom_cons_same (h : a.blockOrTimestamp = some t) :
    nextFrom t (a :: after) = nextFrom t after := by
  unfold nextFrom
  rw [find?_cons_of_neg]
  simp [h]

theorem nextFrom_cons_other {u : Timestamp} (h : a.blockOrTimestamp = some u) (hne : u ≠ t) :
    nextFrom t (a :: after) = some u.value := by
  unfold nextFrom
  rw [find?_cons_of_pos (by simp [h, hne]), bind_some, h]
  rfl

theorem nextFrom_iff (hstart : hf.blockOrTimestamp = some t)
    (hgrouped : (t.value :: after.filterMap activation).Grouped) :
    nextFrom t after = (after.filterMap activation).find? (hf.activation ≠ some ·) ↔
      SpelledAlike hf after := by
  have hown : hf.activation = some t.value := congrArg (Option.map Timestamp.value) hstart
  induction after with
  | nil => exact ⟨fun _ a ha => (nomatch ha), fun _ => rfl⟩
  | cons a after ih =>
    cases ha : a.blockOrTimestamp with
    | none =>
      have hnone : a.activation = none := congrArg (Option.map Timestamp.value) ha
      rw [filterMap_cons, hnone] at hgrouped ⊢
      rw [nextFrom_cons_none ha]
      refine (ih hgrouped).trans ⟨fun hall b hb hsame => ?_, fun hall b hb => hall b (mem_cons_of_mem a hb)⟩
      rcases mem_cons.mp hb with rfl | hb
      · rw [hnone, hown] at hsame
        cases hsame
      · exact hall b hb hsame
    | some u =>
      have hactivation : a.activation = some u.value := congrArg (Option.map Timestamp.value) ha
      rw [filterMap_cons, hactivation] at hgrouped ⊢
      by_cases hsame : u = t
      · subst hsame
        rw [nextFrom_cons_same ha, find?_cons_of_neg (by simp [hown])]
        refine (ih hgrouped.2).trans ⟨fun hall b hb => ?_, fun hall b hb => hall b (mem_cons_of_mem a hb)⟩
        rcases mem_cons.mp hb with rfl | hb
        · exact fun _ => ha.trans hstart.symm
        · exact hall b hb
      · rw [nextFrom_cons_other ha hsame]
        by_cases hvalue : u.value = t.value
        · -- the same activation under another spelling is taken for the next one
          refine iff_of_false (fun hfind => ?_) fun hall => ?_
          · have hne := find?_some hfind.symm
            simp [hown, hvalue] at hne
          · have hspelled := hall a mem_cons_self (by rw [hactivation, hown, hvalue])
            rw [ha, hstart] at hspelled
            exact hsame (some.inj hspelled)
        · rw [find?_cons_of_pos (by simp [hown, Ne.symm hvalue])]
          refine iff_of_true rfl fun b hb hsame => ?_
          have hmem : t.value ∈ u.value :: after.filterMap activation := by
            have hmem := mem_filterMap.mpr ⟨b, hb, hsame.trans hown⟩
            rwa [filterMap_cons, hactivation] at hmem
          exact absurd (some.inj (hgrouped.1 hmem)) hvalue

theorem findIdx?_name (hfirst : ∀ a ∈ before, a.name ≠ hf.name) :
    (before ++ hf :: after).findIdx? (fun a => a.name = hf.name) = some before.length := by
  have hsplit := @findIdx?_split _ (fun a => decide (a.name = hf.name)) before (hf :: after)
    (fun a ha => decide_eq_false (hfirst a ha)) fun a ha => by
      obtain rfl := some.inj ha
      exact decide_eq_true rfl
  rwa [if_neg (cons_ne_nil _ _)] at hsplit

theorem next_of_index {front later : List HardforkTransitionConfig} {currentHf : HardforkTransitionConfig}
    {targetHardfork : HardforkName} {i : Nat} (hlist : hardforks = front ++ currentHf :: later)
    (hfound : hardforks.findIdx? (fun a => a.name = targetHardfork) = some i)
    (hindex : i = if targetHardfork = .known .Paris then front.length + 1 else front.length) :
    nextHardforkBlockOrTimestamp hardforks targetHardfork =
      currentHf.blockOrTimestamp.bind fun t => nextFrom t later := by
  have htarget : (if targetHardfork = .known .Paris then (i : Int) - 1 else i) = front.length := by
    rw [hindex]
    split <;> omega
  unfold nextHardforkBlockOrTimestamp
  rw [hfound]
  dsimp only
  rw [htarget, if_neg (Int.not_lt.mpr (natCast_nonneg _)), toNat_natCast, hlist, drop_left]
  cases hstart : currentHf.blockOrTimestamp with
  | none => simp only [hstart, bind_none]
  | some t =>
    simp only [hstart, bind_some]
    rfl

theorem no_next_iff : none = (after.filterMap activation).find? (hf.activation ≠ some ·) ↔
    ∀ a ∈ after, ∀ n ∈ a.activation, hf.activation = some n := by
  rw [eq_comm, find?_eq_none]
  constructor
  · intro h a ha n hn
    simpa using h n (mem_filterMap.mpr ⟨a, ha, hn⟩)
  · intro h n hn
    obtain ⟨a, ha, hactivation⟩ := mem_filterMap.mp hn
    simpa using h a ha n hactivation

theorem nextHardforkBlockOrTimestamp_iff (h : ForkList hardforks) (hplace : hardforks = before ++ hf :: after)
    (hfirst : ∀ a ∈ before, a.name ≠ hf.name) (hscheduled : hf.scheduled = true) :
    nextHardforkBlockOrTimestamp hardforks hf.name =
        (after.filterMap activation).find? (hf.activation ≠ some ·) ↔
      NextFound before hf after := by
  obtain ⟨t, hstart⟩ : ∃ t, hf.blockOrTimestamp = some t := by
    unfold scheduled at hscheduled
    unfold blockOrTimestamp
    cases htime : hf.timestamp with
    | some t => exact ⟨t, rfl⟩
    | none =>
      obtain ⟨b, hb⟩ := isSome_iff_exists.mp (by rwa [htime, isSome_none, Bool.or_false] at hscheduled)
      exact ⟨⟨none, b⟩, by rw [hb]; rfl⟩
  have hown : hf.activation = some t.value := congrArg (Option.map Timestamp.value) hstart
  have hgrouped : (t.value :: after.filterMap activation).Grouped := by
    apply h.grouped.sublist
    rw [hplace, filterMap_append, filterMap_cons, hown]
    exact sublist_append_right ..
  have hfound : hardforks.findIdx? (fun a => a.name = hf.name) = some before.length := by
    rw [hplace]
    exact findIdx?_name hfirst
  unfold NextFound
  by_cases hparis : hf.name = .known .Paris
  · rw [if_pos hparis]
    rcases eq_nil_or_concat before with rfl | ⟨front, previous, rfl⟩
    · -- nothing is in front of the merge
      have hnext : nextHardforkBlockOrTimestamp hardforks hf.name = none := by
        unfold nextHardforkBlockOrTimestamp
        rw [hfound]
        dsimp only
        rw [if_pos hparis]
        rfl
      rw [hnext]
      exact no_next_iff
    · rw [concat_eq_append] at hplace hfound ⊢
      have hlist : hardforks = front ++ previous :: (hf :: after) := by
        rw [hplace, append_assoc, singleton_append]
      have hnext := next_of_index hlist hfound (by rw [if_pos hparis, length_append, length_singleton])
      rw [hnext, getLast?_concat, bind_some]
      cases hprevious : previous.blockOrTimestamp with
      | none =>
        exact no_next_iff
      | some u =>
        rw [bind_some]
        by_cases hsame : t = u
        · subst hsame
          rw [nextFrom_cons_same hstart, nextFrom_iff hstart hgrouped]
          exact (and_iff_right hstart).symm
        · -- the merge itself is found
          rw [nextFrom_cons_other hstart hsame]
          refine iff_of_false (fun hfind => ?_) fun hboth => hsame (some.inj (hstart.symm.trans hboth.1))
          have hne := find?_some hfind.symm
          simp [hown] at hne
  · rw [if_neg hparis]
    have hnext := next_of_index hplace hfound (if_neg hparis).symm
    rw [hnext, hstart, bind_some, nextFrom_iff hstart hgrouped]

/-! ## Hardforks at one activation -/

theorem activation_of_scheduled (h : hf.scheduled = true) : ∃ n, hf.activation = some n := by
  unfold scheduled at h
  unfold activation blockOrTimestamp
  cases htime : hf.timestamp with
  | some t => exact ⟨t.value, rfl⟩
  | none =>
    rw [htime, isSome_none, Bool.or_false] at h
    obtain ⟨b, hb⟩ := isSome_iff_exists.mp h
    exact ⟨b, by rw [hb]; rfl⟩

theorem mem_forkPoints {n : Int} (h : n ∈ forkPoints hardforks) :
    n ∈ hardforks.filterMap activation := by
  obtain ⟨a, ha, hn⟩ := mem_filterMap.mp (mem_filter.mp h).1
  split at hn
  · cases hn
  · exact mem_filterMap.mpr ⟨a, ha, hn⟩

/-- A later hardfork at the activation of one that counts adds nothing. -/
theorem forkChecksum_same {mid : List HardforkTransitionConfig} {hf' : HardforkTransitionConfig} {n : Int}
    (h : ForkList hardforks) (hplace : hardforks = before ++ hf :: (mid ++ hf' :: after))
    (hown : hf.activation = some n) (hsame : hf'.activation = some n) (hparis : hf.name ≠ .known .Paris)
    (genesisHash : Bytes) :
    forkChecksum genesisHash (before ++ hf :: (mid ++ [hf'])) = forkChecksum genesisHash (before ++ [hf]) := by
  have hgrouped : (n :: (mid.filterMap activation ++
      n :: after.filterMap activation)).Grouped := by
    apply h.grouped.sublist
    rw [hplace, filterMap_append, filterMap_cons, hown, filterMap_append,
      filterMap_cons, hsame]
    exact sublist_append_right ..
  have hall : ∀ m ∈ forkPoints (mid ++ [hf']), m = n := by
    intro m hm
    have hmem := mem_forkPoints hm
    rw [filterMap_append] at hmem
    rcases mem_append.mp hmem with hmem | hmem
    · exact hgrouped.eq_of_between m hmem
    · obtain ⟨a, ha, hn⟩ := mem_filterMap.mp hmem
      rw [mem_singleton.mp ha, hsame] at hn
      exact (some.inj hn).symm
  have hpoints : (forkPoints (before ++ hf :: (mid ++ [hf']))).dedup = (forkPoints (before ++ [hf])).dedup := by
    rw [← singleton_append, forkPoints_append, forkPoints_append, forkPoints_append before]
    by_cases hzero : n = 0
    · have hnil : forkPoints (mid ++ [hf']) = [] := List.eq_nil_iff_forall_not_mem.mpr fun m hm => by
        rw [hall m hm, hzero] at hm
        exact zero_notMem_forkPoints hm
      rw [hnil, append_nil]
    · have hpoint : forkPoints [hf] = [n] := by
        unfold forkPoints
        simp [hparis, hown, hzero]
      rw [hpoint, singleton_append, dedup_append_same hall]
  unfold forkChecksum
  rw [hpoints]

/-- The hash is the fork identifier where that has four bytes without its leading zeros, and
hardforks at one activation share it, the merge aside. -/
theorem calcForkHash_iff (h : ForkList hardforks) (hplace : hardforks = before ++ hf :: after)
    (hfirst : ∀ a ∈ before, a.name ≠ hf.name) (hscheduled : hf.scheduled = true) (genesisHash : Bytes) :
    (calcForkHash hardforks hf.name genesisHash =
          .ok (bytesToHex (bigEndian 4 (forkChecksum genesisHash (before ++ [hf])))) ∧
        nextHardforkBlockOrTimestamp hardforks hf.name =
          (after.filterMap HardforkTransitionConfig.activation).find? (hf.activation ≠ some ·) ↔
      2 ^ 24 ≤ forkChecksum genesisHash (before ++ [hf]) ∧ NextFound before hf after) ∧
    ∀ before' hf' after', hardforks = before' ++ hf' :: after' → (∀ a ∈ before', a.name ≠ hf'.name) →
      hf'.activation = hf.activation → hf.name ≠ .known .Paris → hf'.name ≠ .known .Paris →
      calcForkHash hardforks hf'.name genesisHash = calcForkHash hardforks hf.name genesisHash := by
  have hhash := calcForkHash_eq h hplace hfirst genesisHash
  constructor
  · apply and_congr _ (nextHardforkBlockOrTimestamp_iff h hplace hfirst hscheduled)
    rw [hhash, Except.ok.injEq, bytesToHex_inj]
    exact numberToBytes_eq_bigEndian (BitVec.isLt _)
  · intro before' hf' after' hplace' hfirst' hsame hparis hparis'
    obtain ⟨n, hown⟩ := activation_of_scheduled hscheduled
    rw [hhash, calcForkHash_eq h hplace' hfirst' genesisHash]
    congr 3
    -- one of the two places is in front of the other
    rcases List.append_eq_append_iff.mp (hplace.symm.trans hplace') with ⟨mid, rfl, hrest⟩ | ⟨mid, rfl, hrest⟩
    · cases mid with
      | nil =>
        obtain ⟨rfl, -⟩ := List.cons.inj hrest
        rw [append_nil]
      | cons a mid =>
        obtain ⟨rfl, rfl⟩ := List.cons.inj hrest
        rw [append_assoc, cons_append]
        exact forkChecksum_same h hplace hown (hsame.trans hown) hparis genesisHash
    · cases mid with
      | nil =>
        obtain ⟨rfl, -⟩ := List.cons.inj hrest
        rw [append_nil]
      | cons a mid =>
        obtain ⟨rfl, rfl⟩ := List.cons.inj hrest
        rw [append_assoc, cons_append]
        exact (forkChecksum_same h hplace' (hsame.trans hown) hown hparis' genesisHash).symm

end

/-- The first hardforks of the main chain. -/
def firstForks : List HardforkTransitionConfig :=
  [⟨.known .Chainstart, some 0, none⟩, ⟨.known .Homestead, some 1150000, none⟩]

def mainnetGenesis : Bytes :=
  [0xd4, 0xe5, 0x67, 0x40, 0xf8, 0x76, 0xae, 0xf8, 0xc0, 0x10, 0xb8, 0x6a, 0x40, 0xd5, 0xf5, 0x67,
    0x45, 0xa1, 0x18, 0xd0, 0x90, 0x6a, 0x34, 0xe6, 0x9a, 0xec, 0x8c, 0x0d, 0xb1, 0xcb, 0x8f, 0xa3]

theorem firstForks_list : ForkList firstForks where
  safe := by decide +kernel
  grouped := .of_pairwise (fun _ _ => Int.le_antisymm) (by decide +kernel : ([0, 1150000] : List Int).Pairwise (· ≤ ·))

/-- Homestead has the hash that the configuration of the main chain gives for it. -/
theorem calcForkHash_homestead : calcForkHash firstForks (.known .Homestead) mainnetGenesis =
        .ok (bytesToHex (bigEndian 4 (forkChecksum mainnetGenesis firstForks))) ∧
      nextHardforkBlockOrTimestamp firstForks (.known .Homestead) = none ∧
      bytesToHex (bigEndian 4 (forkChecksum mainnetGenesis firstForks)) = "0x97c2c34c".toList := by
  have hcond : 2 ^ 24 ≤ forkChecksum mainnetGenesis firstForks ∧
      NextFound [⟨.known .Chainstart, some 0, none⟩] ⟨.known .Homestead, some 1150000, none⟩ [] :=
    ⟨by decide +kernel, fun a ha => (nomatch ha)⟩
  obtain ⟨hhash, hnext⟩ := (@calcForkHash_iff firstForks [⟨.known .Chainstart, some 0, none⟩] []
    ⟨.known .Homestead, some 1150000, none⟩ firstForks_list rfl (by decide) rfl mainnetGenesis).1.mpr hcond
  exact ⟨hhash, hnext, by decide +kernel⟩

/-- A genesis hash with a small checksum. -/
def smallChecksum : Bytes := List.replicate 31 0 ++ [150]

/-- The hash has three bytes where the highest byte of the checksum is zero. -/
theorem three_bytes : ForkList firstForks ∧
    calcForkHash firstForks (.known .Chainstart) smallChecksum = .ok "0x6663dc".toList ∧
    bytesToHex (bigEndian 4 (forkChecksum smallChecksum [⟨.known .Chainstart, some 0, none⟩])) =
      "0x006663dc".toList :=
  ⟨firstForks_list, by decide +kernel, by decide +kernel⟩

end HardforkSelection
