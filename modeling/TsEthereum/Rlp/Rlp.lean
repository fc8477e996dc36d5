-- SUMMARY: RLP encoding and decoding of nested byte strings, and that decoding reads back what was encoded.
import TsEthereum.Utils.DB

/-!
# RLP

Items are byte strings and lists of items; `null` encodes as the empty string and
is not kept apart from it. The decoder recurses on a fuel that the length of its
input bounds. A length that is read from the input is a JavaScript number, so it
is rounded from 2^53 on; no byte array is that long.
-/

open List Nat

namespace Rlp

inductive Item where
  | bytes (b : Bytes)
  | list (l : List Item)

/-! ## Equality of items -/

mutual

def Item.decEq : (x y : Item) → Decidable (x = y)
  | .bytes b, .bytes c =>
    if h : b = c then .isTrue (h ▸ rfl) else .isFalse (fun e => h (Item.bytes.inj e))
  | .list l, .list m =>
    match Item.decEqAll l m with
    | .isTrue h => .isTrue (h ▸ rfl)
    | .isFalse h => .isFalse (fun e => h (Item.list.inj e))
  | .bytes _, .list _ => .isFalse (fun e => nomatch e)
  | .list _, .bytes _ => .isFalse (fun e => nomatch e)
termination_by structural x => x

def Item.decEqAll : (l m : List Item) → Decidable (l = m)
  | [], [] => .isTrue rfl
  | x :: l, y :: m =>
    match Item.decEq x y, Item.decEqAll l m with
    | .isTrue h, .isTrue h' => .isTrue (h ▸ h' ▸ rfl)
    | .isFalse h, _ => .isFalse (fun e => h (List.cons.inj e).1)
    | _, .isFalse h' => .isFalse (fun e => h' (List.cons.inj e).2)
  | [], _ :: _ => .isFalse (fun e => nomatch e)
  | _ :: _, [] => .isFalse (fun e => nomatch e)
termination_by structural l => l

end

instance : DecidableEq Item := Item.decEq

instance : Inhabited Item := ⟨.bytes []⟩

/-- The `length` property of a decoded value, a byte array or an array. -/
def Item.length : Item → Nat
  | .bytes b => b.length
  | .list l => l.length

/-! ## Encoding -/

/-- The big-endian bytes of a number, in front of `acc`; `fuel` bounds their number. -/
def numberBytes : Nat → Nat → Bytes → Bytes
  | 0, _, acc => acc
  | fuel + 1, n, acc =>
    if n < 256 then UInt8.ofNat n :: acc
    else numberBytes fuel (n / 256) (UInt8.ofNat (n % 256) :: acc)

/-- The bytes that `numberToHex` spells. -/
def numberToBytes (n : Nat) : Bytes := numberBytes (n + 1) n []

def encodeLength (len offset : Nat) : Bytes :=
  if len < 56 then
    [UInt8.ofNat (len + offset)]
  else
    let lengthBytes := numberToBytes len
    UInt8.ofNat (offset + 55 + lengthBytes.length) :: lengthBytes

def encodeBytes (b : Bytes) : Bytes :=
  match b with
  | [x] => if x < 128 then b else encodeLength b.length 128 ++ b
  | _ => encodeLength b.length 128 ++ b

mutual

def encode : Item → Bytes
  | .bytes b => encodeBytes b
  | .list l => encodeLength (encodeAll l).length 192 ++ encodeAll l
termination_by structural x => x

def encodeAll : List Item → Bytes
  | [] => []
  | x :: xs => encode x ++ encodeAll xs
termination_by structural l => l

end

/-! ## Decoding -/

inductive RlpError where
  | remainder | extraZeros | invalidByteSequence | outOfBounds | invalidPrefix | stringLength
  | stringTooShort | listTooShort | totalLength
  /-- Not an error of the source: the model's recursion bound. -/
  | outOfFuel
  deriving DecidableEq, Repr

def RlpError.message : RlpError → String
  | .remainder => "invalid RLP: remainder must be zero"
  | .extraZeros => "invalid RLP: extra zeros"
  | .invalidByteSequence => "Invalid byte sequence"
  | .outOfBounds => "invalid RLP (safeSlice): end slice of Uint8Array out-of-bounds"
  | .invalidPrefix =>
    "invalid RLP encoding: invalid prefix, single byte < 0x80 are not prefixed"
  | .stringLength => "invalid RLP: not enough bytes for string length"
  | .stringTooShort => "invalid RLP: expected string length to be greater than 55"
  | .listTooShort => "invalid RLP: encoded list too short"
  | .totalLength => "invalid RLP: total length is larger than the data"
  | .outOfFuel => ""

def safeSlice (input : Bytes) (start stop : Nat) : Except RlpError Bytes :=
  if stop > input.length then .error .outOfBounds else .ok ((input.take stop).drop start)

/-- The JavaScript number for `n`: the nearest one with 53 significant bits, the even one of
two that are equally near. -/
def toNumber (n : Nat) : Nat :=
  if n < 2 ^ 53 then n
  else
    let unit := 2 ^ (n.log2 - 52)
    let q := n / unit
    let r := n % unit
    if unit < 2 * r ∨ (2 * r = unit ∧ q % 2 = 1) then (q + 1) * unit else q * unit

/-- `parseHexByte` of the bytes in hexadecimal. -/
def parseHexByte (v : Bytes) : Except RlpError Nat :=
  match v with
  | [] => .error .invalidByteSequence
  | _ => .ok (toNumber (v.foldl (fun n b => 256 * n + b.toNat) 0))

def decodeLength (v : Bytes) : Except RlpError Nat :=
  if v.head? = some 0 then .error .extraZeros else parseHexByte v

mutual

/-- One item and what follows it. -/
def decodeItem : Nat → Bytes → Except RlpError (Item × Bytes)
  | 0, _ => .error .outOfFuel
  | _ + 1, [] => .error .invalidByteSequence
  | fuel + 1, first :: tail => do
    let input := first :: tail
    let firstByte := first.toNat
    if firstByte ≤ 0x7f then
      return (.bytes (input.take 1), input.drop 1)
    else if firstByte ≤ 0xb7 then
      let length := firstByte - 0x7f
      let data ← if firstByte = 0x80 then pure [] else safeSlice input 1 length
      if length = 2 ∧ (data.head?.any (· < 0x80)) then
        .error .invalidPrefix
      return (.bytes data, input.drop length)
    else if firstByte ≤ 0xbf then
      let lLength := firstByte - 0xb6
      if input.length - 1 < lLength then
        .error .stringLength
      let length ← decodeLength (← safeSlice input 1 lLength)
      if length ≤ 55 then
        .error .stringTooShort
      let data ← safeSlice input lLength (length + lLength)
      return (.bytes data, input.drop (length + lLength))
    else if firstByte ≤ 0xf7 then
      let length := firstByte - 0xbf
      let decoded ← decodeItems fuel (← safeSlice input 1 length)
      return (.list decoded, input.drop length)
    else
      let lLength := firstByte - 0xf6
      let length ← decodeLength (← safeSlice input 1 lLength)
      if length < 56 then
        .error .listTooShort
      let totalLength := lLength + length
      if totalLength > input.length then
        .error .totalLength
      let decoded ← decodeItems fuel (← safeSlice input lLength totalLength)
      return (.list decoded, input.drop totalLength)

/-- The items up to the end of the input. -/
def decodeItems : Nat → Bytes → Except RlpError (List Item)
  | _, [] => .ok []
  | 0, _ :: _ => .error .outOfFuel
  | fuel + 1, input => do
    let d ← decodeItem fuel input
    return d.1 :: (← decodeItems fuel d.2)

end

def decode (input : Bytes) : Except RlpError Item :=
  match input with
  | [] => .ok (.bytes [])
  | _ => do
    let d ← decodeItem (2 * input.length) input
    if d.2 ≠ [] then
      .error .remainder
    return d.1

/-- `decode` with `stream`: the item and the remainder, of which there is none for an empty
input. -/
def decodeStream (input : Bytes) : Except RlpError (Item × Option Bytes) :=
  match input with
  | [] => .ok (.bytes [], none)
  | _ => do
    let d ← decodeItem (2 * input.length) input
    return (d.1, some d.2)

/-! ## Big-endian numbers -/

variable {fuel n : Nat}

theorem foldl_numberBytes (h : n < fuel) (acc : Bytes) :
    (numberBytes fuel n acc).foldl (fun n b => 256 * n + b.toNat) 0 =
      acc.foldl (fun n b => 256 * n + b.toNat) n := by
  induction fuel generalizing n acc with
  | zero => exact absurd h (Nat.not_lt_zero n)
  | succ fuel ih =>
    unfold numberBytes
    split
    · rename_i hsmall
      simp [mod_eq_of_lt hsmall]
    · have hdiv : n / 256 < fuel := by omega
      have hvalue : 256 * (n / 256) + n % 256 = n := div_add_mod n 256
      rw [ih hdiv]
      simp [hvalue]

theorem numberBytes_eq_cons (h : n < fuel) (hn : 0 < n) (acc : Bytes) :
    ∃ x tail, numberBytes fuel n acc = x :: tail ∧ x ≠ 0 := by
  induction fuel generalizing n acc with
  | zero => exact absurd h (Nat.not_lt_zero n)
  | succ fuel ih =>
    unfold numberBytes
    split
    · rename_i hsmall
      refine ⟨UInt8.ofNat n, acc, rfl, fun hzero => ?_⟩
      have hnat := congrArg UInt8.toNat hzero
      simp [mod_eq_of_lt hsmall] at hnat
      omega
    · exact ih (by omega) (by omega) _

theorem length_numberBytes {k n : Nat} (h : n < 256 ^ (k + 1)) (fuel : Nat) (acc : Bytes) :
    (numberBytes fuel n acc).length ≤ k + 1 + acc.length := by
  induction k generalizing fuel n acc with
  | zero =>
    cases fuel with
    | zero => simp [numberBytes]
    | succ fuel =>
      have hsmall : n < 256 := by simpa using h
      simp only [numberBytes, hsmall, if_true, length_cons]
      omega
  | succ k ih =>
    cases fuel with
    | zero =>
      simp only [numberBytes]
      omega
    | succ fuel =>
      unfold numberBytes
      split
      · simp only [length_cons]
        omega
      · have hdiv : n / 256 < 256 ^ (k + 1) := by
          rw [Nat.pow_succ] at h
          exact Nat.div_lt_of_lt_mul (by omega)
        have hrest := ih hdiv fuel (UInt8.ofNat (n % 256) :: acc)
        simp only [length_cons] at hrest
        omega

theorem toNumber_of_lt (h : n < 2 ^ 53) : toNumber n = n := by
  unfold toNumber
  rw [if_pos h]

/-- Rounding keeps a number on its side of 2^53. -/
theorem toNumber_lt_iff : toNumber n < 2 ^ 53 ↔ n < 2 ^ 53 := by
  constructor
  · intro h
    by_contra hn
    have hlog : 53 ≤ n.log2 := (le_log2 (by omega)).mpr (by omega)
    have hunit : 2 ^ (n.log2 - 52) * 2 ^ 52 ≤ n := by
      rw [← Nat.pow_add, Nat.sub_add_cancel (by omega)]
      exact log2_self_le (by omega)
    have hq : 2 ^ 52 ≤ n / 2 ^ (n.log2 - 52) := by
      rw [Nat.le_div_iff_mul_le (Nat.two_pow_pos _), Nat.mul_comm]
      exact hunit
    have htwo : 2 ^ 1 ≤ 2 ^ (n.log2 - 52) := Nat.pow_le_pow_right (by omega) (by omega)
    have hlow : 2 ^ 52 * 2 ^ 1 ≤ n / 2 ^ (n.log2 - 52) * 2 ^ (n.log2 - 52) :=
      Nat.mul_le_mul hq htwo
    unfold toNumber at h
    simp only [hn, if_false] at h
    split at h
    · rw [Nat.add_mul] at h
      omega
    · omega
  · intro h
    rw [toNumber_of_lt h]
    exact h

/-- What the decoder needs of the bytes of a length. -/
theorem numberToBytes_spec (hn : 0 < n) (h : n < 2 ^ 53) :
    decodeLength (numberToBytes n) = .ok n ∧ 1 ≤ (numberToBytes n).length ∧
      (numberToBytes n).length ≤ 8 := by
  have hvalue := foldl_numberBytes (lt_succ_self n) []
  obtain ⟨x, tail, hcons, hx⟩ := numberBytes_eq_cons (lt_succ_self n) hn []
  have hlen := length_numberBytes (k := 7) (n := n) (by omega) (n + 1) []
  unfold numberToBytes
  rw [hcons] at hvalue hlen ⊢
  refine ⟨?_, by simp, by simpa using hlen⟩
  simp only [decodeLength, parseHexByte, head?_cons, Option.some.injEq, hx, if_false, hvalue,
    foldl_nil, toNumber_of_lt h]

/-! ## Decoding what was encoded -/

theorem safeSlice_append (a b c : Bytes) :
    safeSlice (a ++ (b ++ c)) a.length (a.length + b.length) = .ok b := by
  unfold safeSlice
  rw [if_neg (by simp), ← append_assoc, ← length_append, take_left, drop_left]

variable {b rest : Bytes}

/-- A payload of up to 55 bytes behind its one-byte header. -/
theorem decodeItem_short (hlen : b.length < 56) (hbyte : ∀ x, b = [x] → ¬ x < 128) :
    decodeItem (fuel + 1) (UInt8.ofNat (b.length + 128) :: (b ++ rest)) = .ok (.bytes b, rest) := by
  have hfirst : (UInt8.ofNat (b.length + 128)).toNat = b.length + 128 := by
    simp
    omega
  have hslice : safeSlice (UInt8.ofNat (b.length + 128) :: (b ++ rest)) 1 (b.length + 1) = .ok b := by
    have happ := safeSlice_append [UInt8.ofNat (b.length + 128)] b rest
    rwa [length_singleton, Nat.add_comm 1] at happ
  have hdrop : (UInt8.ofNat (b.length + 128) :: (b ++ rest)).drop (b.length + 1) = rest := by simp
  simp only [decodeItem, hfirst]
  rw [if_neg (by omega), if_pos (by omega)]
  have hlength : b.length + 128 - 127 = b.length + 1 := by omega
  rw [hlength, hslice, hdrop]
  by_cases hempty : b.length = 0
  · have hnil : b = [] := length_eq_zero_iff.mp hempty
    subst hnil
    rfl
  · rw [if_neg (by omega)]
    have hprefix : ¬ (b.length + 1 = 2 ∧ b.head?.any (· < 128) = true) := by
      rintro ⟨hone, hhead⟩
      obtain ⟨x, rfl⟩ := List.length_eq_one_iff.mp (by omega : b.length = 1)
      exact hbyte x rfl (by simpa using hhead)
    simp only [bind, Except.bind]
    rw [if_neg hprefix]
    rfl

variable {len : Nat}

/-- The header of a long payload: its first byte, and the length read back from it. -/
theorem encodeLength_long (offset : Nat) (hlen : 56 ≤ len) (hmax : len < 2 ^ 53)
    (hoffset : offset ≤ 192) : ∃ lengthBytes : Bytes,
      encodeLength len offset = UInt8.ofNat (offset + 55 + lengthBytes.length) :: lengthBytes ∧
      (UInt8.ofNat (offset + 55 + lengthBytes.length)).toNat = offset + 55 + lengthBytes.length ∧
      decodeLength lengthBytes = .ok len ∧ 1 ≤ lengthBytes.length ∧ lengthBytes.length ≤ 8 := by
  obtain ⟨hvalue, hone, height⟩ := numberToBytes_spec (n := len) (by omega) hmax
  refine ⟨numberToBytes len, ?_, ?_, hvalue, hone, height⟩
  · unfold encodeLength
    rw [if_neg (by omega)]
  · rw [UInt8.toNat_ofNat']
    omega

theorem slice_lengthBytes (x : UInt8) (lengthBytes rest : Bytes) :
    safeSlice (x :: (lengthBytes ++ rest)) 1 (lengthBytes.length + 1) = .ok lengthBytes := by
  have happ := safeSlice_append [x] lengthBytes rest
  rwa [length_singleton, Nat.add_comm 1] at happ

theorem slice_payload (x : UInt8) (lengthBytes b rest : Bytes) :
    safeSlice (x :: (lengthBytes ++ (b ++ rest))) (lengthBytes.length + 1)
      (lengthBytes.length + 1 + b.length) = .ok b := by
  have happ := safeSlice_append (x :: lengthBytes) b rest
  simpa using happ

theorem drop_payload (x : UInt8) (lengthBytes b rest : Bytes) :
    (x :: (lengthBytes ++ (b ++ rest))).drop (lengthBytes.length + 1 + b.length) = rest := by
  have hlist : x :: (lengthBytes ++ (b ++ rest)) = (x :: lengthBytes ++ b) ++ rest := by simp
  rw [hlist, drop_left' (by simp; omega)]

theorem decodeItem_long (hlen : 56 ≤ b.length) (hmax : b.length < 2 ^ 53) :
    decodeItem (fuel + 1) (encodeLength b.length 128 ++ (b ++ rest)) = .ok (.bytes b, rest) := by
  obtain ⟨lengthBytes, hheader, hfirst, hvalue, hone, height⟩ :=
    encodeLength_long 128 hlen hmax (by omega)
  rw [hheader, cons_append]
  simp only [decodeItem, hfirst]
  rw [if_neg (by omega), if_neg (by omega), if_pos (by omega)]
  have hlLength : 128 + 55 + lengthBytes.length - 182 = lengthBytes.length + 1 := by omega
  have htotal : b.length + (lengthBytes.length + 1) = lengthBytes.length + 1 + b.length := by omega
  rw [hlLength, if_neg (by simp only [length_cons, length_append]; omega),
    slice_lengthBytes]
  simp only [bind, Except.bind, pure, Except.pure, hvalue]
  rw [if_neg (by omega), htotal, slice_payload, drop_payload]

variable {l : List Item}

theorem decodeItem_list {payload : Bytes} (hmax : payload.length < 2 ^ 53)
    (hitems : decodeItems fuel payload = .ok l) :
    decodeItem (fuel + 1) (encodeLength payload.length 192 ++ (payload ++ rest)) =
      .ok (.list l, rest) := by
  by_cases hshort : payload.length < 56
  · have hfirst : (UInt8.ofNat (payload.length + 192)).toNat = payload.length + 192 := by
      rw [UInt8.toNat_ofNat']
      omega
    have hheader : encodeLength payload.length 192 = [UInt8.ofNat (payload.length + 192)] := by
      unfold encodeLength
      rw [if_pos hshort]
    rw [hheader, singleton_append]
    simp only [decodeItem, hfirst]
    rw [if_neg (by omega), if_neg (by omega), if_neg (by omega), if_pos (by omega)]
    have hlength : payload.length + 192 - 191 = payload.length + 1 := by omega
    have hdrop : (UInt8.ofNat (payload.length + 192) :: (payload ++ rest)).drop
        (payload.length + 1) = rest := by simp
    rw [hlength, slice_lengthBytes, hdrop]
    simp only [bind, Except.bind, pure, Except.pure, hitems]
  · obtain ⟨lengthBytes, hheader, hfirst, hvalue, hone, height⟩ :=
      encodeLength_long 192 (by omega) hmax (by omega)
    rw [hheader, cons_append]
    simp only [decodeItem, hfirst]
    rw [if_neg (by omega), if_neg (by omega), if_neg (by omega), if_neg (by omega)]
    have hlLength : 192 + 55 + lengthBytes.length - 246 = lengthBytes.length + 1 := by omega
    rw [hlLength, slice_lengthBytes]
    simp only [bind, Except.bind, pure, Except.pure, hvalue]
    rw [if_neg (by omega), if_neg (by simp only [length_cons, length_append]; omega),
      slice_payload, drop_payload]
    simp only [hitems]

theorem length_encode_pos (x : Item) : 1 ≤ (encode x).length := by
  have hheader (len offset : Nat) : 1 ≤ (encodeLength len offset).length := by
    unfold encodeLength
    split <;> simp
  cases x with
  | bytes b =>
    simp only [encode]
    unfold encodeBytes
    split
    · split
      · simp
      · simp only [length_append]
        exact le_add_right_of_le (hheader _ _)
    · simp only [length_append]
      exact le_add_right_of_le (hheader _ _)
  | list l =>
    simp only [encode, length_append]
    exact le_add_right_of_le (hheader _ _)

theorem encodeLength_short (h : len < 56) (offset : Nat) :
    encodeLength len offset = [UInt8.ofNat (len + offset)] := by
  unfold encodeLength
  rw [if_pos h]

theorem length_encodeLength_le {k : Nat} (h : len < 256 ^ (k + 1)) (offset : Nat) :
    (encodeLength len offset).length ≤ k + 2 := by
  unfold encodeLength
  split
  · exact Nat.le_add_left 1 (k + 1)
  · exact succ_le_succ (length_numberBytes h (len + 1) [])

theorem length_le_encodeBytes (b : Bytes) : b.length ≤ (encodeBytes b).length := by
  unfold encodeBytes
  split
  · split
    · exact Nat.le_refl _
    · exact (suffix_append _ _).length_le
  · exact (suffix_append _ _).length_le

theorem length_encodeBytes_le {k : Nat} (h : b.length < 256 ^ (k + 1)) :
    (encodeBytes b).length ≤ b.length + (k + 2) := by
  have hheader : (encodeLength b.length 128 ++ b).length ≤ b.length + (k + 2) := by
    rw [length_append, Nat.add_comm]
    exact Nat.add_le_add_left (length_encodeLength_le h 128) _
  unfold encodeBytes
  split
  · split
    · exact Nat.le_add_right _ (k + 2)
    · exact hheader
  · exact hheader

theorem length_encodeAll_append (l m : List Item) :
    (encodeAll (l ++ m)).length = (encodeAll l).length + (encodeAll m).length := by
  induction l with
  | nil => simp [encodeAll]
  | cons x l ih =>
    simp only [cons_append, encodeAll, length_append, ih]
    omega

theorem length_encodeAll_le {b : Nat} (h : ∀ x ∈ l, (encode x).length ≤ b) :
    (encodeAll l).length ≤ l.length * b := by
  induction l with
  | nil => simp [encodeAll]
  | cons x l ih =>
    have hx := h x mem_cons_self
    have hl := ih (fun y hy => h y (mem_cons_of_mem x hy))
    simp only [encodeAll, length_append, length_cons, Nat.add_mul]
    omega

theorem length_encode_list_le (h : (encodeAll l).length < 2 ^ 53) :
    (encode (.list l)).length ≤ 9 + (encodeAll l).length := by
  simp only [encode, length_append]
  exact Nat.add_le_add_right (length_encodeLength_le (k := 7) (by omega) 192) _

theorem decodeItem_encodeBytes (hmax : (encodeBytes b).length < 2 ^ 53) :
    decodeItem (fuel + 1) (encodeBytes b ++ rest) = .ok (.bytes b, rest) := by
  unfold encodeBytes at hmax ⊢
  split
  · rename_i x
    split
    · rename_i hsmall
      have hnat : x.toNat ≤ 127 := by
        have hlt : x.toNat < 128 := hsmall
        omega
      simp only [decodeItem, singleton_append]
      rw [if_pos hnat]
      rfl
    · rename_i hlarge
      rw [encodeLength_short (by simp), append_assoc, singleton_append]
      exact decodeItem_short (by simp) (fun y hy => by simpa [← singleton_injective hy] using hlarge)
  · rename_i hnot
    rw [append_assoc]
    by_cases hshort : b.length < 56
    · rw [encodeLength_short hshort, singleton_append]
      exact decodeItem_short hshort (fun x hx => absurd hx (hnot x))
    · refine decodeItem_long (by omega) ?_
      have htotal := hmax
      split at htotal
      · rename_i x
        exact absurd rfl (hnot x)
      · rw [length_append] at htotal
        omega

mutual

theorem decodeItem_encode (x : Item) (fuel : Nat) (rest : Bytes) (hmax : (encode x).length < 2 ^ 53)
    (hfuel : 2 * (encode x).length ≤ fuel + 1) :
    decodeItem fuel (encode x ++ rest) = .ok (x, rest) := by
  have hpos := length_encode_pos x
  obtain ⟨n, rfl⟩ : ∃ n, fuel = n + 1 := ⟨fuel - 1, by omega⟩
  match x with
  | .bytes b =>
    simp only [encode] at hmax ⊢
    exact decodeItem_encodeBytes hmax
  | .list l =>
    have hheader : 1 ≤ (encodeLength (encodeAll l).length 192).length := by
      unfold encodeLength
      split <;> simp
    simp only [encode, length_append] at hmax hfuel
    have hitems := decodeItems_encodeAll l n (by omega) (by omega)
    simp only [encode, append_assoc]
    exact decodeItem_list (by omega) hitems
termination_by structural x

theorem decodeItems_encodeAll (l : List Item) (fuel : Nat) (hmax : (encodeAll l).length < 2 ^ 53)
    (hfuel : 2 * (encodeAll l).length ≤ fuel) : decodeItems fuel (encodeAll l) = .ok l := by
  match l with
  | [] =>
    simp only [encodeAll]
    cases fuel <;> rfl
  | x :: xs =>
    have hpos := length_encode_pos x
    simp only [encodeAll, length_append] at hmax hfuel
    obtain ⟨n, rfl⟩ : ∃ n, fuel = n + 1 := ⟨fuel - 1, by omega⟩
    have hitem := decodeItem_encode x n (encodeAll xs) (by omega) (by omega)
    have hitems := decodeItems_encodeAll xs n (by omega) (by omega)
    obtain ⟨first, tail, hcons⟩ := exists_cons_of_length_pos
      (l := encode x ++ encodeAll xs) (by simp; omega)
    simp only [encodeAll]
    rw [hcons]
    simp only [decodeItems]
    rw [← hcons, hitem]
    simp only [bind, Except.bind, hitems]
    rfl
termination_by structural l

end

/-- Decoding reads back what was encoded. -/
theorem decode_encode {x : Item} (hmax : (encode x).length < 2 ^ 53) :
    decode (encode x) = .ok x := by
  have hitem := decodeItem_encode x (2 * (encode x).length) [] hmax (by omega)
  rw [append_nil] at hitem
  obtain ⟨first, tail, hcons⟩ := exists_cons_of_length_pos (length_encode_pos x)
  unfold decode
  rw [hcons] at hitem ⊢
  simp only [hitem]
  rfl

/-- What follows an encoding is left as the remainder. -/
theorem decodeStream_append (x : Item) (r : Bytes) (hmax : (encode x).length < 2 ^ 53) :
    decodeStream (encode x ++ r) = .ok (x, some r) := by
  have hitem := decodeItem_encode x (2 * (encode x ++ r).length) r hmax (by simp; omega)
  obtain ⟨first, tail, hcons⟩ := exists_cons_of_length_pos
    (l := encode x ++ r) (by have := length_encode_pos x; simp; omega)
  unfold decodeStream
  rw [hcons] at hitem ⊢
  simp only [hitem]
  rfl

/-- The item comes back from its encoding, also where something follows. -/
theorem decode_stream_encode (x : Item) (r : Bytes) (hmax : (encode x).length < 2 ^ 53) :
    decode (encode x) = .ok x ∧ decodeStream (encode x ++ r) = .ok (x, some r) :=
  ⟨decode_encode hmax, decodeStream_append x r hmax⟩

theorem decode_stream_encode_sample :
    decode (encode (.list [.bytes [1], .list [.bytes [200], .bytes []]])) =
        .ok (.list [.bytes [1], .list [.bytes [200], .bytes []]]) ∧
      decodeStream (encode (.list [.bytes [1], .list [.bytes [200], .bytes []]]) ++ [5, 6]) =
        .ok (.list [.bytes [1], .list [.bytes [200], .bytes []]], some [5, 6]) :=
  decode_stream_encode _ [5, 6] (by decide)

theorem encode_injective {x y : Item} (hx : (encode x).length < 2 ^ 53)
    (h : encode x = encode y) : x = y := by
  have hy := decode_encode (h ▸ hx : (encode y).length < 2 ^ 53)
  rw [← h, decode_encode hx] at hy
  exact Except.ok.inj hy

end Rlp
