-- SUMMARY: Conversions to byte arrays, of hex strings and of decoded RLP values.
import TsEthereum.Rlp.Rlp
import TsEthereum.Utils.Hex

/-!
# Byte arrays

What `Uint8Array` makes of a decoded RLP value, which is a byte array or an array,
and the bytes that a prefixed hex string spells.
-/

/-- The number that an element of an array is written as into a byte array: a single byte
spells itself, and what does not spell a number is 0. -/
def toUint8 : Rlp.Item → UInt8
  | .bytes [b] => b
  | .bytes _ => 0
  | .list [x] => toUint8 x
  | .list _ => 0

/-- A decoded value as `Uint8Array.set` copies it. -/
def toUint8Array : Rlp.Item → Bytes
  | .bytes b => b
  | .list l => l.map toUint8

/-- `hexToBytes` of a string with the prefix. -/
def hexToBytes (hex : HexString) : Except String Bytes :=
  if ['0', 'x'] <+: hex then hexPairs (padToEven (stripHexPrefix hex))
  else .error "input string must be 0x prefixed"

theorem hexToBytes_bytesToHex (bytes : Bytes) : hexToBytes (bytesToHex bytes) = .ok bytes := by
  have hprefix : ['0', 'x'] <+: bytesToHex bytes := ⟨bytesToUnprefixedHex bytes, rfl⟩
  have hstrip : stripHexPrefix (bytesToHex bytes) = bytesToUnprefixedHex bytes :=
    if_pos (isHexString_bytesToHex bytes)
  have heven : padToEven (bytesToUnprefixedHex bytes) = bytesToUnprefixedHex bytes := by
    unfold padToEven
    rw [length_bytesToUnprefixedHex, if_neg (by omega)]
  unfold hexToBytes
  rw [if_pos hprefix, hstrip, heven, hexPairs_bytesToUnprefixedHex]
