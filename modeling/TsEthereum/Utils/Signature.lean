-- SUMMARY: The RPC and the compact form of a signature, and which signatures come back from both.
import TsEthereum.Base.Fallible
import TsEthereum.Utils.Account
import TsEthereum.Utils.Bytes

/-!
# Forms of a signature

The conversions of `utils/src/signature.ts`. The recovery bit of a signature is told
by `v`, which is the bit itself, 27 more, or `chainId * 2 + 35` more; the compact form
keeps it in the top bit of `s`.
-/

open List

open Except (throwWhen)

namespace ECDSA

def calculateSigRecovery (v : Int) (chainId : Option Int) : Int :=
  if v = 0 ∨ v = 1 then v
  else
    match chainId with
    | none => v - 27
    | some chainId => v - (chainId * 2 + 35)

def isValidSigRecovery (recovery : Int) : Bool := recovery = 0 || recovery = 1

/-- The digits of a negative `v` have a sign. -/
def toRPCSig (v : Int) (r s : Bytes) (chainId : Option Int) : Except String HexString := do
  let recovery := calculateSigRecovery v chainId
  throwWhen (isValidSigRecovery recovery = false) "Invalid signature v value"
  throwWhen (v < 0) "hex string expected, got non-hex character"
  pure (bytesToHex (setLengthLeft r 32 ++ setLengthLeft s 32 ++ bigIntToBytes v))

/-- `ss[0] |= 0x80`, which an empty array ignores. -/
def setTopBit : Bytes → Bytes
  | [] => []
  | b :: ss => (b ||| 0x80) :: ss

/-- `s[0] &= 0x7f`. -/
def clearTopBit : Bytes → Bytes
  | [] => []
  | b :: s => (b &&& 0x7f) :: s

/-- `v` stands for a recovery bit of 1. -/
def isOdd (v : Int) : Bool := (28 < v && v % 2 = 1) || v = 1 || v = 28

def toCompactSig (v : Int) (r s : Bytes) (chainId : Option Int) : Except String HexString := do
  let recovery := calculateSigRecovery v chainId
  throwWhen (isValidSigRecovery recovery = false) "Invalid signature v value"
  let ss := if isOdd v then setTopBit s else s
  pure (bytesToHex (setLengthLeft r 32 ++ setLengthLeft ss 32))

/-- What `fromRPCSig` returns. -/
structure SignatureParameters where
  v : Int
  r : Bytes
  s : Bytes
  deriving DecidableEq, Repr

def fromRPCSig (sig : HexString) : Except String SignatureParameters := do
  let bytes ← hexToBytes sig
  throwWhen (bytes.length < 64) "Invalid signature length"
  let r := bytes.take 32
  let s := (bytes.drop 32).take 32
  let (v, s) :=
    if 65 ≤ bytes.length then (bytesToBigInt (bytes.drop 64), s)
    else (bytesToBigInt ((bytes.drop 32).take 1) / 128, clearTopBit s)
  pure ⟨if v < 27 then v + 27 else v, r, s⟩

/-! ## The two round trips -/

/-- The forms of `v` for a recovery bit, with the chain id that they are admitted with. -/
inductive VForm (bit : Int) : Int → Option Int → Prop
  | plain (chainId : Option Int) : VForm bit bit chainId
  | legacy : VForm bit (27 + bit) none
  | eip155 (chainId : Nat) : VForm bit (chainId * 2 + 35 + bit) (some chainId)

/-- `fromRPCSig` reads 27 or 28 for 0 or 1. -/
def Equivalent (v v' : Int) : Prop := v' = v ∨ (v = 0 ∨ v = 1) ∧ v' = v + 27

def ReadsRPC (v : Int) (r s : Bytes) (chainId : Option Int) : Prop :=
  ∃ sig v', toRPCSig v r s chainId = .ok sig ∧
    fromRPCSig sig = .ok ⟨v', setLengthLeft r 32, setLengthLeft s 32⟩ ∧ Equivalent v v'

def ReadsCompact (bit v : Int) (r s : Bytes) (chainId : Option Int) : Prop :=
  ∃ sig, toCompactSig v r s chainId = .ok sig ∧
    fromRPCSig sig = .ok ⟨27 + bit, setLengthLeft r 32, setLengthLeft s 32⟩

def RoundTrips (bit v : Int) (r s : Bytes) (chainId : Option Int) : Prop :=
  ReadsRPC v r s chainId ∧ ReadsCompact bit v r s chainId

def TopBitClear (s : Bytes) : Prop := ∀ b ∈ s.head?, b.toNat < 128

/-- `s` has all its bytes, of which the first leaves room for the bit, and `v` is none of
the forms with a chain id; or `s` is shorter, there is no bit to keep, and the bit that is set
for a chain id is there already. -/
def CompactFits (bit v : Int) (s : Bytes) : Prop :=
  (s.length = 32 ∧ TopBitClear s ∧ v ≤ 28) ∨
    (s.length < 32 ∧ bit = 0 ∧ (28 < v → ∀ b ∈ s.head?, 128 ≤ b.toNat))

/-! ## Bytes -/

theorem byte_of_lt {P : UInt8 → Prop} (h : ∀ n < 256, P (UInt8.ofNat n)) (b : UInt8) : P b := by
  have hb := h b.toNat b.toNat_lt
  rwa [UInt8.ofNat_toNat] at hb

theorem toNat_or_top (b : UInt8) : (b ||| 0x80).toNat / 128 = 1 :=
  byte_of_lt (P := fun b => (b ||| 0x80).toNat / 128 = 1) (by decide +kernel) b

theorem and_or_top (b : UInt8) : (b ||| 0x80) &&& 0x7f = b &&& 0x7f :=
  byte_of_lt (P := fun b => (b ||| 0x80) &&& 0x7f = b &&& 0x7f) (by decide +kernel) b

theorem and_eq_self_iff (b : UInt8) : b &&& 0x7f = b ↔ b.toNat < 128 :=
  byte_of_lt (P := fun b => b &&& 0x7f = b ↔ b.toNat < 128) (by decide +kernel) b

theorem or_eq_self_iff (b : UInt8) : b ||| 0x80 = b ↔ 128 ≤ b.toNat :=
  byte_of_lt (P := fun b => b ||| 0x80 = b ↔ 128 ≤ b.toNat) (by decide +kernel) b

theorem length_setTopBit (s : Bytes) : (setTopBit s).length = s.length := by
  cases s <;> rfl

theorem setLengthLeft_of_length {msg : Bytes} {n : Nat} (h : msg.length = n) :
    setLengthLeft msg n = msg := by
  unfold setLengthLeft
  rw [if_neg (by omega), h, Nat.sub_self, drop_zero]

/-- A byte array that is too short is read with a zero in front. -/
theorem setLengthLeft_of_lt {msg : Bytes} {n : Nat} (h : msg.length < n + 1) :
    setLengthLeft msg (n + 1) = 0 :: setLengthLeft msg n := by
  unfold setLengthLeft
  rw [if_pos h]
  split
  · rw [Nat.succ_sub (by omega), replicate_succ, cons_append]
  · have hn : n = msg.length := by omega
    rw [hn, Nat.sub_self, drop_zero, Nat.add_sub_cancel_left, replicate_one, singleton_append]

theorem setLengthLeft_inj {a b : Bytes} {n : Nat} (hlen : a.length = b.length) (ha : a.length ≤ n) :
    setLengthLeft a n = setLengthLeft b n ↔ a = b := by
  refine ⟨fun h => ?_, fun h => h ▸ rfl⟩
  unfold setLengthLeft at h
  rw [← hlen] at h
  split at h
  · exact append_cancel_left h
  · have hn : a.length - n = 0 := by omega
    rwa [hn, drop_zero, drop_zero] at h

/-! ## The RPC form -/

section
variable {bit v : Int} {chainId : Option Int} (r s : Bytes)

section

variable (hbit : bit = 0 ∨ bit = 1)
include hbit

theorem nonneg_of_form (h : VForm bit v chainId) : 0 ≤ v := by
  cases h <;> omega

/-- What `v` of a form is computed to. -/
theorem recovery_of_form (h : VForm bit v chainId) : calculateSigRecovery v chainId = bit := by
  cases h with
  | plain => exact if_pos hbit
  | legacy =>
    have hv : ¬(27 + bit = 0 ∨ 27 + bit = 1) := by omega
    unfold calculateSigRecovery
    rw [if_neg hv]
    exact add_sub_cancel_left 27 bit
  | eip155 c =>
    have hv : ¬((c : Int) * 2 + 35 + bit = 0 ∨ (c : Int) * 2 + 35 + bit = 1) := by omega
    unfold calculateSigRecovery
    rw [if_neg hv]
    exact add_sub_cancel_left _ bit

theorem isValid_of_form (h : VForm bit v chainId) :
    isValidSigRecovery (calculateSigRecovery v chainId) = true := by
  rw [recovery_of_form hbit h]
  rcases hbit with rfl | rfl <;> rfl

/-- The bit that the compact form keeps is the recovery bit, unless `v` has a chain id. -/
theorem isOdd_of_form (h : VForm bit v chainId) :
    isOdd v = true ↔ (v ≤ 28 ∧ bit = 1) ∨ (28 < v ∧ bit = 0) := by
  unfold isOdd
  simp only [Bool.or_eq_true, Bool.and_eq_true, decide_eq_true_eq]
  cases h <;> omega

end

theorem bigIntToBytes_ne_nil (n : Int) : bigIntToBytes n ≠ [] := by
  unfold bigIntToBytes
  split
  · exact cons_ne_nil _ _
  · next hn =>
    have hpos : n.toNat ≠ 0 := by omega
    simpa [Nat.digits_eq_nil_iff_eq_zero] using hpos

/-- A number follows the two halves. -/
theorem fromRPCSig_long {r s rest : Bytes} (hr : r.length = 32) (hs : s.length = 32) (hrest : rest ≠ []) :
    fromRPCSig (bytesToHex (r ++ s ++ rest)) =
      .ok ⟨if bytesToBigInt rest < 27 then bytesToBigInt rest + 27 else bytesToBigInt rest, r, s⟩ := by
  have hhalves : (r ++ s).length = 64 := by rw [length_append, hr, hs]
  have hlong : 65 ≤ (r ++ s ++ rest).length := by
    rw [length_append, hhalves]
    exact Nat.add_le_add_left (length_pos_of_ne_nil hrest) 64
  have hrbytes : (r ++ s ++ rest).take 32 = r := by
    rw [append_assoc]
    exact take_left' hr
  have hsbytes : ((r ++ s ++ rest).drop 32).take 32 = s := by
    rw [append_assoc, drop_left' hr]
    exact take_left' hs
  have hvbytes : (r ++ s ++ rest).drop 64 = rest := drop_left' hhalves
  unfold fromRPCSig
  rw [hexToBytes_bytesToHex]
  simp only [throwWhen, show ¬(r ++ s ++ rest).length < 64 by omega, hlong, hrbytes, hsbytes, hvbytes, if_true,
    if_false, bind, Except.bind, pure, Except.pure]

/-- Without a number the bit is in the second half. -/
theorem fromRPCSig_compact {r s : Bytes} (hr : r.length = 32) (hs : s.length = 32) :
    fromRPCSig (bytesToHex (r ++ s)) =
      .ok ⟨bytesToBigInt (s.take 1) / 128 + 27, r, clearTopBit s⟩ := by
  have hlen : (r ++ s).length = 64 := by rw [length_append, hr, hs]
  have hrbytes : (r ++ s).take 32 = r := take_left' hr
  have hsbytes : (r ++ s).drop 32 = s := drop_left' hr
  have hstake : s.take 32 = s := take_of_length_le hs.le
  have hsmall : bytesToBigInt (s.take 1) / 128 < 27 := by
    have hbounds : bytesToBigInt (s.take 1) < 256 := by
      simpa [length_take, hs] using (bytesToBigInt_bounds (s.take 1)).2
    exact Int.ediv_lt_of_lt_mul (by decide) (hbounds.trans (by decide))
  unfold fromRPCSig
  rw [hexToBytes_bytesToHex]
  simp only [throwWhen, hlen, hrbytes, hsbytes, hstake, hsmall, show ¬(64 < 64) by decide,
    show ¬(65 ≤ 64) by decide, if_true, if_false, bind, Except.bind, pure, Except.pure]

theorem toRPCSig_of_form (hbit : bit = 0 ∨ bit = 1) (h : VForm bit v chainId) : toRPCSig v r s chainId =
    .ok (bytesToHex (setLengthLeft r 32 ++ setLengthLeft s 32 ++ bigIntToBytes v)) := by
  have hv := nonneg_of_form hbit h
  simp only [toRPCSig, isValid_of_form hbit h, throwWhen, Bool.true_eq_false, Int.not_lt.mpr hv, if_false, bind,
    Except.bind, pure, Except.pure]

/-- Signatures always come back from the RPC form. -/
theorem readsRPC (hbit : bit = 0 ∨ bit = 1) (h : VForm bit v chainId) : ReadsRPC v r s chainId := by
  have hvalue : bytesToBigInt (bigIntToBytes v) = v := by
    have hv := nonneg_of_form hbit h
    lift v to Nat using hv
    exact bytesToBigInt_bigIntToBytes v
  have hread := fromRPCSig_long (length_setLengthLeft r 32) (length_setLengthLeft s 32)
    (bigIntToBytes_ne_nil v)
  rw [hvalue] at hread
  refine ⟨_, _, toRPCSig_of_form r s hbit h, hread, ?_⟩
  split
  · next hsmall =>
    -- below 27 there are the bits themselves
    have hplain : v = 0 ∨ v = 1 := by cases h <;> omega
    exact .inr ⟨hplain, rfl⟩
  · exact .inl rfl

/-! ## The compact form -/

/-- The bytes of `s` that the compact form is written with. -/
def compactS (v : Int) (s : Bytes) : Bytes := if isOdd v then setTopBit s else s

theorem length_compactS (v : Int) : (compactS v s).length = s.length := by
  unfold compactS
  split
  · exact length_setTopBit s
  · rfl

theorem toCompactSig_of_form (hbit : bit = 0 ∨ bit = 1) (h : VForm bit v chainId) :
    toCompactSig v r s chainId =
      .ok (bytesToHex (setLengthLeft r 32 ++ setLengthLeft (compactS v s) 32)) := by
  simp only [toCompactSig, isValid_of_form hbit h, throwWhen, Bool.true_eq_false, if_false, bind, Except.bind,
    pure, Except.pure, compactS]

/-- What the compact form says: the top bit of its 33rd byte, and what is left without it. -/
theorem readsCompact_iff (hbit : bit = 0 ∨ bit = 1) (h : VForm bit v chainId) :
    ReadsCompact bit v r s chainId ↔
      bytesToBigInt ((setLengthLeft (compactS v s) 32).take 1) / 128 = bit ∧
        clearTopBit (setLengthLeft (compactS v s) 32) = setLengthLeft s 32 := by
  have hwrite := toCompactSig_of_form r s hbit h
  have hread := fromRPCSig_compact (length_setLengthLeft r 32) (length_setLengthLeft (compactS v s) 32)
  constructor
  · rintro ⟨sig, hsig, hparams⟩
    obtain rfl := Except.ok.inj (hwrite.symm.trans hsig)
    obtain ⟨hv, -, hs⟩ := SignatureParameters.mk.inj (Except.ok.inj (hread.symm.trans hparams))
    exact ⟨add_right_cancel (hv.trans (Int.add_comm 27 bit)), hs⟩
  · rintro ⟨hv, hs⟩
    rw [hv, hs, Int.add_comm] at hread
    exact ⟨_, hwrite, hread⟩

theorem firstByte (b : UInt8) (s : Bytes) : bytesToBigInt ((b :: s).take 1) = b.toNat := by
  change (256 * 0 + (b.toNat : Int)) = b.toNat
  omega

/-- With all the bytes of `s` the bit stands where it is looked for. -/
theorem readsCompact_of_full (hs : s.length = 32) (hbit : bit = 0 ∨ bit = 1) (h : VForm bit v chainId) :
    ReadsCompact bit v r s chainId ↔ TopBitClear s ∧ v ≤ 28 := by
  rw [readsCompact_iff r s hbit h, setLengthLeft_of_length ((length_compactS s v).trans hs),
    setLengthLeft_of_length hs]
  cases s with
  | nil => cases hs
  | cons b s =>
    have hclear : TopBitClear (b :: s) ↔ b.toNat < 128 :=
      ⟨fun h => h b rfl, fun h c hc => Option.some.inj hc ▸ h⟩
    have hodd := isOdd_of_form hbit h
    have hb := b.toNat_lt
    rw [hclear]
    cases hset : isOdd v with
    | true =>
      have hcompact : compactS v (b :: s) = (b ||| 0x80) :: s := if_pos hset
      have hone : ((b ||| 0x80).toNat : Int) / 128 = 1 := by exact_mod_cast toNat_or_top b
      rw [hcompact, firstByte, hone]
      simp only [clearTopBit, and_or_top, List.cons.injEq, and_true, and_eq_self_iff]
      rw [hset] at hodd
      have := hodd.mp rfl
      omega
    | false =>
      have hcompact : compactS v (b :: s) = b :: s := if_neg (by rw [hset]; exact Bool.false_ne_true)
      rw [hcompact, firstByte]
      simp only [clearTopBit, List.cons.injEq, and_true, and_eq_self_iff]
      have hnot : ¬((v ≤ 28 ∧ bit = 1) ∨ (28 < v ∧ bit = 0)) := by
        rw [← hodd, hset]
        exact Bool.false_ne_true
      omega

/-- The bit is set in a byte of `s` that is not the first of the 32. -/
theorem readsCompact_of_short (hs : s.length < 32) (hbit : bit = 0 ∨ bit = 1) (h : VForm bit v chainId) :
    ReadsCompact bit v r s chainId ↔ bit = 0 ∧ (28 < v → ∀ b ∈ s.head?, 128 ≤ b.toNat) := by
  have hcompact := length_compactS s v
  rw [readsCompact_iff r s hbit h, setLengthLeft_of_lt (hcompact.trans_lt hs), setLengthLeft_of_lt hs,
    firstByte]
  have hclear : clearTopBit (0 :: setLengthLeft (compactS v s) 31) = 0 :: setLengthLeft (compactS v s) 31 :=
    rfl
  have hle : (compactS v s).length ≤ 31 := by omega
  rw [hclear, cons_inj_right, setLengthLeft_inj hcompact hle]
  have hodd := isOdd_of_form hbit h
  cases hset : isOdd v with
  | true =>
    have hbits := hodd.mp hset
    have hS : compactS v s = setTopBit s := if_pos hset
    have hsame : setTopBit s = s ↔ ∀ b ∈ s.head?, 128 ≤ b.toNat := by
      cases s with
      | nil => exact ⟨fun _ b hb => (nomatch hb), fun _ => rfl⟩
      | cons b s =>
        simp only [setTopBit, List.cons.injEq, and_true, or_eq_self_iff, head?_cons, Option.mem_some_iff,
          forall_eq']
    rw [hS, hsame]
    constructor
    · rintro ⟨hzero, htop⟩
      exact ⟨hzero.symm, fun _ => htop⟩
    · rintro ⟨rfl, htop⟩
      exact ⟨rfl, htop (by omega)⟩
  | false =>
    have hbits : ¬((v ≤ 28 ∧ bit = 1) ∨ (28 < v ∧ bit = 0)) := fun hbits => by
      rw [hodd.mpr hbits] at hset
      cases hset
    have hS : compactS v s = s := if_neg (by rw [hset]; exact Bool.false_ne_true)
    rw [hS]
    constructor
    · rintro ⟨hzero, -⟩
      exact ⟨hzero.symm, fun hlarge => absurd (.inr ⟨hlarge, hzero.symm⟩) hbits⟩
    · rintro ⟨rfl, -⟩
      exact ⟨rfl, rfl⟩

/-- Both forms return a signature exactly where the compact form has room for its bit, in the
place and with the parity that it is read with. -/
theorem roundTrips_iff (hs : s.length ≤ 32) (hbit : bit = 0 ∨ bit = 1) (h : VForm bit v chainId) :
    RoundTrips bit v r s chainId ↔ CompactFits bit v s := by
  have hcompact : ReadsCompact bit v r s chainId ↔ CompactFits bit v s := by
    rcases Nat.lt_or_eq_of_le hs with hlt | hlen
    · rw [readsCompact_of_short r s hlt hbit h]
      exact ⟨fun hfits => .inr ⟨hlt, hfits⟩, fun hfits => hfits.elim (fun hfull => absurd hfull.1 hlt.ne) (·.2)⟩
    · rw [readsCompact_of_full r s hlen hbit h]
      exact ⟨fun hfits => .inl ⟨hlen, hfits⟩, fun hfits => hfits.elim (·.2) fun hshort => absurd hlen hshort.1.ne⟩
  exact (and_iff_right (readsRPC r s hbit h)).trans hcompact

end

/-! ## A signed transaction -/

namespace Sample

def r : Bytes := [0x28, 0xef, 0x61, 0x34, 0x0b, 0xd9, 0x39, 0xbc, 0x21, 0x95, 0xfe, 0x53, 0x75, 0x67, 0x86, 0x60,
  0x03, 0xe1, 0xa1, 0x5d, 0x3c, 0x71, 0xff, 0x63, 0xe1, 0x59, 0x06, 0x20, 0xaa, 0x63, 0x62, 0x76]

def s : Bytes := [0x67, 0xcb, 0xe9, 0xd8, 0x99, 0x7f, 0x76, 0x1a, 0xec, 0xb7, 0x03, 0x30, 0x4b, 0x38, 0x00, 0xcc,
  0xf5, 0x55, 0xc9, 0xf3, 0xdc, 0x64, 0x21, 0x4b, 0x29, 0x7f, 0xb1, 0x96, 0x6a, 0x3b, 0x6d, 0x83]

end Sample

/-- Without a chain id the signature comes back from both forms. -/
theorem roundTrips_sample : RoundTrips 0 27 Sample.r Sample.s none :=
  (roundTrips_iff Sample.r Sample.s (by decide) (.inl rfl) .legacy).mpr
    (.inl ⟨rfl, fun _ hb => Option.some.inj hb ▸ (by decide), by decide⟩)

/-- With the chain id of the main network the compact form returns the other bit. -/
theorem bit_flipped : VForm 0 37 (some 1) ∧ toCompactSig 37 Sample.r Sample.s (some 1) >>= fromRPCSig =
      .ok ⟨28, Sample.r, Sample.s⟩ ∧ ¬RoundTrips 0 37 Sample.r Sample.s (some 1) := by
  have hflip : toCompactSig 37 Sample.r Sample.s (some 1) >>= fromRPCSig = .ok ⟨28, Sample.r, Sample.s⟩ := by
    decide +kernel
  refine ⟨.eip155 1, hflip, ?_⟩
  rintro ⟨-, sig, hsig, hread⟩
  rw [hsig] at hflip
  have hsame := Except.ok.inj (hread.symm.trans hflip)
  exact absurd (congrArg SignatureParameters.v hsame) (by decide)

end ECDSA
