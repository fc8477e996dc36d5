-- SUMMARY: What the RLP decoder accepts is the encoding of what it returns, and nothing else is.
import TsEthereum.Rlp.Rlp

/-!
# Canonical encodings

The header classes are taken one by one: where the decoder goes on, the bytes it
has read are those that the encoder writes for the length it found. The sizes of
what is left bound the recursion, so the decoder never runs out of fuel.
-/

open List Except Nat

namespace Rlp

/-! ## Lengths -/

variable {fuel : Nat}

/-- A number is written with the bytes it was read from. -/
theorem numberBytes_foldl (v : Bytes) (acc : Bytes) (hv : v ≠ []) (hhead : v.head? ≠ some 0)
    (hfuel : v.foldl (fun n b => 256 * n + b.toNat) 0 < fuel) :
    numberBytes fuel (v.foldl (fun n b => 256 * n + b.toNat) 0) acc = v ++ acc := by
  induction v using List.reverseRecOn generalizing fuel acc with
  | nil => exact absurd rfl hv
  | append_singleton w b ih =>
    obtain ⟨n, rfl⟩ : ∃ n, fuel = n + 1 := ⟨fuel - 1, by omega⟩
    rw [foldl_append, foldl_cons, foldl_nil] at hfuel ⊢
    have hb : b.toNat < 256 := b.toNat_lt
    have hbyte : UInt8.ofNat b.toNat = b := UInt8.ofNat_toNat
    cases w with
    | nil => simp [numberBytes, hb, hbyte]
    | cons x w =>
      have hx : (x :: w).head? ≠ some 0 := by simpa using hhead
      have hpos : 0 < (x :: w).foldl (fun n b => 256 * n + b.toNat) 0 := by
        by_contra hzero
        have hwritten : numberBytes 1 _ [] = x :: w ++ [] :=
          ih [] (cons_ne_nil x w) hx (by omega)
        rw [Nat.eq_zero_of_not_pos hzero] at hwritten
        simp only [numberBytes, zero_lt_succ, if_true, append_nil, List.cons.injEq] at hwritten
        exact hx (by rw [head?_cons, ← hwritten.1]; rfl)
      have hrest : numberBytes n _ (b :: acc) = x :: w ++ b :: acc :=
        ih (b :: acc) (cons_ne_nil x w) hx (by omega)
      have hmod (a : Nat) : (256 * a + b.toNat) % 256 = b.toNat := by omega
      have hdiv (a : Nat) : (256 * a + b.toNat) / 256 = a := by omega
      unfold numberBytes
      rw [if_neg (by omega), hmod, hdiv, hbyte, hrest, append_assoc, singleton_append]

variable {v : Bytes}

/-- A length that a byte array can have is read from the bytes that are written for it. -/
theorem decodeLength_ok {n : Nat} (h : decodeLength v = .ok n) (hn : n < 2 ^ 53) :
    numberToBytes n = v := by
  unfold decodeLength at h
  split at h
  · cases h
  · rename_i hhead
    cases v with
    | nil => cases h
    | cons x tail =>
      have hvalue : toNumber ((x :: tail).foldl (fun n b => 256 * n + b.toNat) 0) = n :=
        ok.inj h
      have hexact := toNumber_of_lt (toNumber_lt_iff.mp (hvalue ▸ hn))
      rw [hvalue] at hexact
      rw [hexact]
      have hwritten := numberBytes_foldl (x :: tail) [] (cons_ne_nil x tail) hhead
        (lt_succ_self _)
      rwa [append_nil] at hwritten

theorem decodeLength_error {e : RlpError} (h : decodeLength v = .error e) : e ≠ .outOfFuel := by
  unfold decodeLength at h
  split at h
  · cases h
    exact nofun
  · cases v with
    | nil =>
      cases h
      exact nofun
    | cons x tail => cases h

variable {input : Bytes} {stop : Nat}

theorem safeSlice_ok {start : Nat} (h : safeSlice input start stop = .ok v) (hle : start ≤ stop) :
    input = input.take start ++ (v ++ input.drop stop) ∧ stop ≤ input.length ∧
      v.length = stop - start := by
  unfold safeSlice at h
  split at h
  · cases h
  · rename_i hbound
    obtain rfl := ok.inj h
    refine ⟨?_, Nat.le_of_not_gt hbound, ?_⟩
    · have htake : input.take start = (input.take stop).take start := by
        rw [take_take, Nat.min_eq_left hle]
      rw [htake, ← append_assoc, take_append_drop, take_append_drop]
    · rw [length_drop, length_take]
      omega

variable {tail : Bytes}

/-- The first byte and the bytes of the length behind it. -/
theorem take_of_slice {x : UInt8} (h : safeSlice (x :: tail) 1 stop = .ok v) (hle : 1 ≤ stop) :
    (x :: tail).take stop = x :: v := by
  obtain ⟨n, rfl⟩ : ∃ n, stop = n + 1 := ⟨stop - 1, by omega⟩
  unfold safeSlice at h
  split at h
  · cases h
  · rw [← ok.inj h]
    rfl

theorem safeSlice_error {start : Nat} {e : RlpError} (h : safeSlice input start stop = .error e) :
    e ≠ .outOfFuel := by
  unfold safeSlice at h
  split at h
  · cases h
    exact nofun
  · cases h

/-! ## One item -/

/-- The decoder's answer is the item that the input begins with, or an error of the source. -/
def Faithful (input : Bytes) : Except RlpError (Item × Bytes) → Prop
  | .ok (x, rest) => encode x ++ rest = input
  | .error e => e ≠ .outOfFuel

def FaithfulAll (input : Bytes) : Except RlpError (List Item) → Prop
  | .ok l => encodeAll l = input
  | .error e => e ≠ .outOfFuel

variable {b : Bytes}

theorem encodeBytes_eq (h : ∀ x, b = [x] → ¬ x < 128) :
    encodeBytes b = encodeLength b.length 128 ++ b := by
  unfold encodeBytes
  split
  · rename_i x
    rw [if_neg (h x rfl)]
  · rfl

variable {first : UInt8}

theorem encodeLength_first {len offset : Nat} (hlen : len < 56)
    (hfirst : first.toNat = len + offset) : encodeLength len offset = [first] := by
  rw [encodeLength_short hlen, ← hfirst, UInt8.ofNat_toNat]

theorem encodeLength_lengthBytes {len offset : Nat} {lengthBytes : Bytes} (hlen : 56 ≤ len)
    (hbytes : numberToBytes len = lengthBytes)
    (hfirst : first.toNat = offset + 55 + lengthBytes.length) :
    encodeLength len offset = first :: lengthBytes := by
  unfold encodeLength
  rw [if_neg (by omega)]
  simp only [hbytes]
  rw [← hfirst, UInt8.ofNat_toNat]

/-- A string of up to 55 bytes. -/
theorem faithful_short (hlow : ¬ first.toNat ≤ 0x7f) (hhigh : first.toNat ≤ 0xb7) :
    Faithful (first :: tail) (decodeItem (fuel + 1) (first :: tail)) := by
  simp only [decodeItem, bind, Except.bind, pure, Except.pure, hlow, hhigh, if_true, if_false]
  generalize hlength : first.toNat - 127 = length
  split
  · rename_i hempty
    have hfirst : first = 128 := UInt8.toNat_inj.mp hempty
    have hone : length = 1 := by omega
    rw [if_neg (fun h => by omega), hfirst, hone]
    rfl
  · split
    · rename_i e herror
      exact safeSlice_error herror
    · rename_i v hslice
      obtain ⟨hinput, hbound, hlen⟩ := safeSlice_ok hslice (by omega)
      split
      · rintro ⟨⟩
      · rename_i hprefix
        have hbytes : encodeBytes v = first :: v := by
          rw [encodeBytes_eq, encodeLength_first (by omega) (by omega : first.toNat = v.length + 128)]
          · rfl
          · rintro x rfl hsmall
            refine hprefix ⟨?_, by simpa using hsmall⟩
            simp only [length_singleton] at hlen
            omega
        simp only [Faithful, encode, hbytes]
        exact hinput.symm

/-- A string behind the bytes of its length. -/
theorem faithful_long (hmax : (first :: tail).length < 2 ^ 53) (hlow : ¬ first.toNat ≤ 0xb7)
    (hhigh : first.toNat ≤ 0xbf) :
    Faithful (first :: tail) (decodeItem (fuel + 1) (first :: tail)) := by
  have hlow' : ¬ first.toNat ≤ 0x7f := by omega
  simp only [decodeItem, bind, Except.bind, pure, Except.pure, hlow', hlow, hhigh, if_true, if_false]
  generalize hlLength : first.toNat - 182 = lLength
  split
  · rintro ⟨⟩
  · split
    · rename_i e herror
      exact safeSlice_error herror
    · rename_i lengthBytes hslice
      obtain ⟨hinput, -, hcount⟩ := safeSlice_ok hslice (by omega)
      split
      · rename_i e herror
        exact decodeLength_error herror
      · rename_i length hlength
        split
        · rintro ⟨⟩
        · split
          · rename_i e herror
            exact safeSlice_error herror
          · rename_i v hdata
            obtain ⟨hinput', hbound, hlen⟩ := safeSlice_ok hdata (by omega)
            have hvlen : v.length = length := by omega
            have hheader : encodeLength v.length 128 = first :: lengthBytes := by
              refine encodeLength_lengthBytes (by omega) ?_ (by omega)
              rw [hvlen]
              exact decodeLength_ok hlength (by omega)
            have htake := take_of_slice hslice (by omega)
            have hbytes : encodeBytes v = first :: lengthBytes ++ v := by
              rw [encodeBytes_eq, hheader]
              rintro x rfl
              simp only [length_singleton] at hvlen
              omega
            simp only [Faithful, encode, hbytes]
            rw [append_assoc, ← htake]
            exact hinput'.symm

section

variable (hitems : ∀ payload, payload.length ≤ tail.length → FaithfulAll payload (decodeItems fuel payload))
include hitems

/-- A list whose items take up to 55 bytes. -/
theorem faithful_shortList (hlow : ¬ first.toNat ≤ 0xbf) (hhigh : first.toNat ≤ 0xf7) :
    Faithful (first :: tail) (decodeItem (fuel + 1) (first :: tail)) := by
  have hlow1 : ¬ first.toNat ≤ 0x7f := by omega
  have hlow2 : ¬ first.toNat ≤ 0xb7 := by omega
  simp only [decodeItem, bind, Except.bind, pure, Except.pure, hlow1, hlow2, hlow, hhigh, if_true,
    if_false]
  generalize hlength : first.toNat - 191 = length
  split
  · rename_i e herror
    exact safeSlice_error herror
  · rename_i payload hslice
    obtain ⟨hinput, hbound, hlen⟩ := safeSlice_ok hslice (by omega)
    have hdecoded := hitems payload (by simp only [length_cons] at hbound; omega)
    split
    · rename_i e herror
      rw [herror] at hdecoded
      exact hdecoded
    · rename_i l hl
      rw [hl] at hdecoded
      have hall : encodeAll l = payload := hdecoded
      simp only [Faithful, encode, hall]
      rw [encodeLength_first (by omega) (by omega : first.toNat = payload.length + 192),
        append_assoc]
      exact hinput.symm

/-- A list behind the bytes of the length of its items. -/
theorem faithful_longList (hmax : (first :: tail).length < 2 ^ 53) (hlow : ¬ first.toNat ≤ 0xf7) :
    Faithful (first :: tail) (decodeItem (fuel + 1) (first :: tail)) := by
  have hlow1 : ¬ first.toNat ≤ 0x7f := by omega
  have hlow2 : ¬ first.toNat ≤ 0xb7 := by omega
  have hlow3 : ¬ first.toNat ≤ 0xbf := by omega
  simp only [decodeItem, bind, Except.bind, pure, Except.pure, hlow1, hlow2, hlow3, hlow, if_false]
  generalize hlLength : first.toNat - 246 = lLength
  split
  · rename_i e herror
    exact safeSlice_error herror
  · rename_i lengthBytes hslice
    obtain ⟨-, -, hcount⟩ := safeSlice_ok hslice (by omega)
    split
    · rename_i e herror
      exact decodeLength_error herror
    · rename_i length hlength
      split
      · rintro ⟨⟩
      · split
        · rintro ⟨⟩
        · split
          · rename_i e herror
            exact safeSlice_error herror
          · rename_i payload hdata
            obtain ⟨hinput, hbound, hlen⟩ := safeSlice_ok hdata (by omega)
            have hplen : payload.length = length := by omega
            have hdecoded := hitems payload (by simp only [length_cons] at hbound; omega)
            split
            · rename_i e herror
              rw [herror] at hdecoded
              exact hdecoded
            · rename_i l hl
              rw [hl] at hdecoded
              have hall : encodeAll l = payload := hdecoded
              have hheader : encodeLength payload.length 192 = first :: lengthBytes := by
                refine encodeLength_lengthBytes (by omega) ?_ (by omega)
                rw [hplen]
                exact decodeLength_ok hlength (by omega)
              simp only [Faithful, encode, hall, hheader]
              rw [append_assoc, ← take_of_slice hslice (by omega)]
              exact hinput.symm

end

/-! ## All items -/

theorem faithful_item (hne : input ≠ []) (hmax : input.length < 2 ^ 53)
    (hitems : ∀ payload, payload.length < input.length →
      FaithfulAll payload (decodeItems fuel payload)) :
    Faithful input (decodeItem (fuel + 1) input) := by
  obtain ⟨first, tail, rfl⟩ := exists_cons_of_ne_nil hne
  have hitems' (payload : Bytes) (hle : payload.length ≤ tail.length) :
      FaithfulAll payload (decodeItems fuel payload) :=
    hitems payload (lt_succ_of_le hle)
  by_cases h1 : first.toNat ≤ 0x7f
  · have hsmall : first < 128 := by
      rw [UInt8.lt_iff_toNat_lt]
      exact lt_succ_of_le h1
    simp only [decodeItem, bind, Except.bind, pure, Except.pure, h1, if_true]
    simp [Faithful, encode, encodeBytes, hsmall]
  · by_cases h2 : first.toNat ≤ 0xb7
    · exact faithful_short h1 h2
    · by_cases h3 : first.toNat ≤ 0xbf
      · exact faithful_long hmax h2 h3
      · by_cases h4 : first.toNat ≤ 0xf7
        · exact faithful_shortList hitems' h3 h4
        · exact faithful_longList hitems' hmax h4

/-- Each item takes up some of the input, so twice its length bounds the recursion. -/
theorem faithful_items (fuel : Nat) (input : Bytes) (hfuel : 2 * input.length ≤ fuel)
    (hmax : input.length < 2 ^ 53) : FaithfulAll input (decodeItems fuel input) := by
  induction fuel using Nat.strongRecOn generalizing input with
  | ind fuel ih =>
    cases input with
    | nil =>
      cases fuel <;> simp [decodeItems, FaithfulAll, encodeAll]
    | cons first tail =>
      simp only [length_cons] at hfuel hmax
      obtain ⟨n, rfl⟩ : ∃ n, fuel = n + 2 := ⟨fuel - 2, by omega⟩
      have hitem : Faithful (first :: tail) (decodeItem (n + 1) (first :: tail)) :=
        faithful_item (cons_ne_nil first tail) hmax (fun payload hlt => by
          simp only [length_cons] at hlt
          exact ih n (by omega) payload (by omega) (by omega))
      simp only [decodeItems, bind, Except.bind, pure, Except.pure]
      split
      · rename_i e herror
        rw [herror] at hitem
        exact hitem
      · rename_i d hd
        rw [hd] at hitem
        have hinput : encode d.1 ++ d.2 = first :: tail := hitem
        have hlen := congrArg List.length hinput
        have hpos := length_encode_pos d.1
        simp only [length_append, length_cons] at hlen
        have hrest := ih (n + 1) (by omega) d.2 (by omega) (by omega)
        split
        · rename_i e herror
          rw [herror] at hrest
          exact hrest
        · rename_i l hl
          rw [hl] at hrest
          have hall : encodeAll l = d.2 := hrest
          simp only [FaithfulAll, encodeAll, hall]
          exact hinput

/-- The first item of a byte string, and what follows it. -/
theorem faithful_first (hb : b ≠ []) (hmax : b.length < 2 ^ 53) :
    Faithful b (decodeItem (2 * b.length) b) := by
  obtain ⟨first, tail, rfl⟩ := exists_cons_of_ne_nil hb
  have hfuel : 2 * (first :: tail).length = 2 * tail.length + 1 + 1 := by
    rw [length_cons]
    omega
  rw [hfuel]
  refine faithful_item (cons_ne_nil first tail) hmax (fun payload hlt => ?_)
  simp only [length_cons] at hlt
  exact faithful_items _ payload (by omega) (by omega)

/-- What is decoded is written as the bytes it was read from. -/
theorem encode_of_decode {x : Item} (hb : b ≠ []) (hmax : b.length < 2 ^ 53) (h : decode b = .ok x) :
    encode x = b := by
  have hitem := faithful_first hb hmax
  obtain ⟨first, tail, rfl⟩ := exists_cons_of_ne_nil hb
  simp only [decode, bind, Except.bind] at h
  split at h
  · cases h
  · rename_i d hd
    rw [hd] at hitem
    split at h
    · cases h
    · rename_i hrest
      obtain rfl := ok.inj h
      have hinput : encode d.1 ++ d.2 = first :: tail := hitem
      rwa [not_not.mp hrest, append_nil] at hinput

/-- The decoder accepts the encoding of an item and nothing else. -/
theorem decode_canonical {b : Bytes} (hb : b ≠ []) (hmax : b.length < 2 ^ 53) :
    (∀ x, decode b = .ok x ↔ encode x = b) ∧
      ((∀ x, encode x ≠ b) → ∃ e, e ≠ .outOfFuel ∧ decode b = .error e) := by
  refine ⟨fun x => ⟨encode_of_decode hb hmax, ?_⟩, fun hnone => ?_⟩
  · intro hx
    rw [← hx] at hmax ⊢
    exact decode_encode hmax
  · cases hdecode : decode b with
    | ok x => exact absurd (encode_of_decode hb hmax hdecode) (hnone x)
    | error e =>
      refine ⟨e, ?_, rfl⟩
      have hitem := faithful_first hb hmax
      obtain ⟨first, tail, rfl⟩ := exists_cons_of_ne_nil hb
      simp only [decode, bind, Except.bind] at hdecode
      split at hdecode
      · rename_i e' herror
        rw [herror] at hitem
        obtain rfl := error.inj hdecode
        exact hitem
      · split at hdecode
        · obtain rfl := error.inj hdecode
          exact nofun
        · cases hdecode

theorem decode_canonical_sample :
    (∀ x, decode [0xc2, 0x05, 0x80] = .ok x ↔ encode x = [0xc2, 0x05, 0x80]) ∧
      ((∀ x, encode x ≠ [0xc2, 0x05, 0x80]) →
        ∃ e, e ≠ .outOfFuel ∧ decode [0xc2, 0x05, 0x80] = .error e) :=
  decode_canonical (by decide) (by decide)

end Rlp
