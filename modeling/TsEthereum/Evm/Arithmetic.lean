-- SUMMARY: The handlers of arithmetic, comparisons and bit operations, on unbounded integers.
import Mathlib.Data.Int.Bitwise
import TsEthereum.Evm.Interpreter

/-!
# Arithmetic opcodes

Of `functions.ts` the handlers `0x01` to `0x1d`, with the helpers of `util.ts`.
A stack item is an integer without bounds, and each handler wraps its result by
hand. Shifts by a negative amount go the other way, and bit operations read
negative numbers as two's complements without end; `Int` has both as JavaScript
has them.
-/

namespace Handlers

def TWO_POW256 : Int := 2 ^ 256
def MAX_INTEGER_BIGINT : Int := 2 ^ 256 - 1

/-! ## Helpers -/

/-- `a % b` takes the sign of `a`. -/
def mod (a b : Int) : Int :=
  let r := a.tmod b
  if r < 0 then b + r else r

/-- `BigInt.asIntN(256, a)`. -/
def fromTwos (a : Int) : Int := a.bmod (2 ^ 256)

/-- `BigInt.asUintN(256, a)`. -/
def toTwos (a : Int) : Int := a % 2 ^ 256

/-- The loop of `exponentiation`. -/
def exponentiation.loop (t bas exp : Int) : Int :=
  if exp > 0 then
    exponentiation.loop (if exp.tmod 2 ≠ 0 then (t * bas).tmod TWO_POW256 else t)
      ((bas * bas).tmod TWO_POW256) (exp.tdiv 2)
  else t
termination_by exp.toNat
decreasing_by
  rw [Int.tdiv_eq_ediv_of_nonneg (by omega)]
  omega

def exponentiation (bas exp : Int) : Int := exponentiation.loop 1 bas exp

/-! ## Stack -/

/-- `push`, where the other items are `rest`. -/
def pushed (r : RunState) (rest : List Int) (value : Int) : LocalState × Except LocalThrow Unit :=
  if rest.length ≥ 1024 then
    (⟨r.programCounter, rest, r.memory⟩, .error (.trap ⟨.STACK_OVERFLOW, by decide⟩))
  else (⟨r.programCounter, value :: rest, r.memory⟩, .ok ())

def underflow (r : RunState) : LocalState × Except LocalThrow Unit :=
  (⟨r.programCounter, r.stack, r.memory⟩, .error (.trap ⟨.STACK_UNDERFLOW, by decide⟩))

/-- A handler that pops one item. -/
def unary (f : Int → Int) : LocalHandler := fun r _ _ =>
  match r.stack with
  | a :: rest => pushed r rest (f a)
  | _ => underflow r

def binary (f : Int → Int → Int) : LocalHandler := fun r _ _ =>
  match r.stack with
  | a :: b :: rest => pushed r rest (f a b)
  | _ => underflow r

def ternary (f : Int → Int → Int → Int) : LocalHandler := fun r _ _ =>
  match r.stack with
  | a :: b :: c :: rest => pushed r rest (f a b c)
  | _ => underflow r

/-! ## Handlers -/

def ADD : LocalHandler := binary fun a b => mod (a + b) TWO_POW256

def MUL : LocalHandler := binary fun a b => mod (a * b) TWO_POW256

def SUB : LocalHandler := binary fun a b => mod (a - b) TWO_POW256

def DIV : LocalHandler := binary fun a b => if b = 0 then 0 else mod (a.tdiv b) TWO_POW256

def SDIV : LocalHandler := binary fun a b =>
  if b = 0 then 0 else toTwos ((fromTwos a).tdiv (fromTwos b))

def MOD : LocalHandler := binary fun a b => if b = 0 then b else mod a b

def SMOD : LocalHandler := binary fun a b =>
  toTwos (if b = 0 then b else (fromTwos a).tmod (fromTwos b))

def ADDMOD : LocalHandler := ternary fun a b c => if c = 0 then 0 else mod (a + b) c

def MULMOD : LocalHandler := ternary fun a b c => if c = 0 then 0 else mod (a * b) c

/-- With the powers of two that are given as constants. -/
def EXP : LocalHandler := binary fun base exponent =>
  if base = 2 ∧ exponent = 96 then 79228162514264337593543950336
  else if base = 2 ∧ exponent = 160 then 1461501637330902918203684832716283019655932542976
  else if base = 2 ∧ exponent = 224 then
    26959946667150639794667015087019630673637144422540572481103610249216
  else if exponent = 0 then 1
  else if base = 0 then base
  else exponentiation base exponent

def SIGNEXTEND : LocalHandler := binary fun k val =>
  if k < 31 then
    let signBit := k * 8 + 7
    let mask : Int := (1 : Int) <<< signBit - 1
    if (val >>> signBit).land 1 ≠ 0 then val.lor (toTwos mask.lnot) else val.land mask
  else val

def LT : LocalHandler := binary fun a b => if a < b then 1 else 0

def GT : LocalHandler := binary fun a b => if a > b then 1 else 0

def SLT : LocalHandler := binary fun a b => if fromTwos a < fromTwos b then 1 else 0

def SGT : LocalHandler := binary fun a b => if fromTwos a > fromTwos b then 1 else 0

def EQ : LocalHandler := binary fun a b => if a = b then 1 else 0

def ISZERO : LocalHandler := unary fun a => if a = 0 then 1 else 0

def AND : LocalHandler := binary Int.land

def OR : LocalHandler := binary Int.lor

def XOR : LocalHandler := binary Int.xor

def NOT : LocalHandler := unary fun a => toTwos a.lnot

/-- At `32` the shift goes the other way, and leaves nothing either. -/
def BYTE : LocalHandler := binary fun pos word =>
  if pos > 32 then 0 else (word >>> ((31 - pos) * 8)).land 255

def SHL : LocalHandler := binary fun a b =>
  if a > 256 then 0 else (b <<< a).land MAX_INTEGER_BIGINT

def SHR : LocalHandler := binary fun a b => if a > 256 then 0 else b >>> a

def SAR : LocalHandler := binary fun a b =>
  let isSigned := decide (fromTwos b < 0)
  if a > 256 then if isSigned then MAX_INTEGER_BIGINT else 0
  else
    let c := b >>> a
    if isSigned then
      let shiftedOutWidth := 255 - a
      let mask := (MAX_INTEGER_BIGINT >>> shiftedOutWidth) <<< shiftedOutWidth
      c.lor mask
    else c

def arithmeticHandlers : Nat → Option LocalHandler
  | 0x01 => some ADD
  | 0x02 => some MUL
  | 0x03 => some SUB
  | 0x04 => some DIV
  | 0x05 => some SDIV
  | 0x06 => some MOD
  | 0x07 => some SMOD
  | 0x08 => some ADDMOD
  | 0x09 => some MULMOD
  | 0x0a => some EXP
  | 0x0b => some SIGNEXTEND
  | 0x10 => some LT
  | 0x11 => some GT
  | 0x12 => some SLT
  | 0x13 => some SGT
  | 0x14 => some EQ
  | 0x15 => some ISZERO
  | 0x16 => some AND
  | 0x17 => some OR
  | 0x18 => some XOR
  | 0x19 => some NOT
  | 0x1a => some BYTE
  | 0x1b => some SHL
  | 0x1c => some SHR
  | 0x1d => some SAR
  | _ => none

end Handlers
