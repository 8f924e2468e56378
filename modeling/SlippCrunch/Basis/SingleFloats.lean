import Mathlib.Data.Rat.Floor
import Mathlib.Algebra.Order.Field.Rat
import SlippCrunch.Basis.ByteMemory

/-! The operations of a C program on single-precision floats that it also stores by their bits. -/

/-- Arithmetic of single-precision floats, between the bits they are stored by. -/
class SingleOps (F : Type) where
  ofBits : Word → F
  toBits : F → Word
  /-- The conversion of an integer literal. -/
  literal : Nat → F
  /-- The comparison `a < b`, false whenever an operand is no number. -/
  lt : F → F → Bool
  add : F → F → F
  sub : F → F → F
  mul : F → F → F
  div : F → F → F
  /-- The conversion of a `uint8_t`. -/
  ofUInt8 : Byte → F
  /-- The conversion of an `int8_t`. -/
  ofInt8 : Byte → F
  /-- The nearest integer, converted to `uint8_t`. -/
  roundToUInt8 : F → Byte
  /-- The nearest integer, converted to `int8_t`. -/
  roundToInt8 : F → Byte

namespace RationalFloats

/-- The largest power of two that does not exceed a positive value, as an exponent. -/
def exponent (value : Rat) : Int :=
  let guess := (value.num.toNat.log2 : Int) - value.den.log2
  -- The quotient of two integers lies within a factor of two of the quotient of their powers.
  if (2 : Rat) ^ guess ≤ value then guess else guess - 1

/-- The bits of the single-precision float next to a rational, towards zero. -/
def toBits (value : Rat) : Word :=
  let sign : Word := if value < 0 then 0x80000000 else 0
  let magnitude := |value|
  if magnitude = 0 then 0
  else
    let power := exponent magnitude
    if power < -126 then sign ||| BitVec.ofNat 32 ⌊magnitude * 2 ^ 149⌋₊
    else if 127 < power then sign ||| 0x7F800000
    else
      let significand := ⌊magnitude / (2 : Rat) ^ power * 2 ^ 23⌋₊
      sign ||| BitVec.ofNat 32 ((power + 127).toNat * 2 ^ 23 + (significand - 2 ^ 23))

/-- The rational that finite bits stand for, and zero for the others. -/
def ofBits (bits : Word) : Rat :=
  let sign : Rat := if bits.msb then -1 else 1
  let power := (bits.extractLsb' 23 8).toNat
  let fraction := (bits.extractLsb' 0 23).toNat
  if power = 255 then 0
  else if power = 0 then sign * fraction / 2 ^ 149
  else sign * ((2 ^ 23 + fraction : Nat) : Rat) * (2 : Rat) ^ ((power : Int) - 150)

/-- The nearest integer, halves away from zero. -/
def round (value : Rat) : Int :=
  if 0 ≤ value then ⌊value + 1 / 2⌋ else -⌊-value + 1 / 2⌋

/-- Rationals, rounded only when they are stored. -/
@[reducible] def singleOps : SingleOps Rat where
  ofBits := ofBits
  toBits := toBits
  literal value := value
  lt first second := decide (first < second)
  add first second := first + second
  sub first second := first - second
  mul first second := first * second
  div first second := first / second
  ofUInt8 byte := byte.toNat
  ofInt8 byte := byte.toInt
  roundToUInt8 value := BitVec.ofInt 8 (round value)
  roundToInt8 value := BitVec.ofInt 8 (round value)

example : toBits 1 = 0x3F800000 := by decide +kernel

example : ofBits 0xC0490000 = -201 / 64 := by decide +kernel

example : toBits (ofBits 0x42F6E979) = 0x42F6E979 := by decide +kernel

end RationalFloats
